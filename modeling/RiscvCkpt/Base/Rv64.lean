import Mathlib.Logic.Function.Basic
import RiscvCkpt.Base.ByteCodec
import RiscvCkpt.Base.ByteMemory
import RiscvCkpt.Base.MachineInt

/-! The RV64 instructions `jal`, `jalr`, `lui`, `addiw` and `ld`: their decoding
and encoding, and their effect on a hart. Registers hold numbers below `2 ^ 64`. -/
namespace Rv64

open ByteCodec ByteMemory MachineInt

inductive Inst where
  | jal (rd : Nat) (offset : Int)
  | jalr (rd rs : Nat) (offset : Int)
  | lui (rd imm : Nat)
  | addiw (rd rs : Nat) (imm : Int)
  | ld (rd rs : Nat) (offset : Int)
  deriving DecidableEq, Repr

/-- A field of `width` bits as a signed number. -/
def signed (width n : Nat) : Int := if n < 2 ^ (width - 1) then n else (n : Int) - 2 ^ width

/-- The lowest `width` bits of a signed number. -/
def field (width : Nat) (z : Int) : Nat := (z % 2 ^ width).toNat

theorem field_lt (width : Nat) (z : Int) : field width z < 2 ^ width := by
  have hPos : (0 : Int) < 2 ^ width := Int.pow_pos (by decide)
  have hLt := Int.emod_lt_of_pos z hPos
  have hCast : ((2 ^ width : Nat) : Int) = 2 ^ width := Int.natCast_pow 2 width
  rw [field]
  omega

/-- A field is found again in its signed value. -/
theorem field_signed {width n : Nat} (h : n < 2 ^ width) : field width (signed width n) = n := by
  have hCast : (n : Int) < 2 ^ width := by exact_mod_cast h
  rw [field, signed]
  split
  · rw [Int.emod_eq_of_lt (Int.natCast_nonneg n) hCast, Int.toNat_natCast]
  · rw [Int.sub_emod_right, Int.emod_eq_of_lt (Int.natCast_nonneg n) hCast, Int.toNat_natCast]

/-- A signed number is found again in its field. -/
theorem signed_field {width : Nat} {z : Int} (hLow : -2 ^ width ≤ z) (hHigh : z < 2 ^ width) :
    signed (width + 1) (field (width + 1) z) = z := by
  have hPow : ((2 ^ width : Nat) : Int) = 2 ^ width := Int.natCast_pow 2 width
  simp only [signed, field, Nat.add_sub_cancel, pow_succ]
  generalize (2 : Int) ^ width = half at *
  generalize 2 ^ width = half' at *
  subst hPow
  by_cases hSign : 0 ≤ z
  · rw [Int.emod_eq_of_lt hSign (by omega), if_pos (by omega)]
    omega
  · rw [← Int.add_emod_right, Int.emod_eq_of_lt (by omega) (by omega), if_neg (by omega)]
    omega

/-- A field of `width + 1` bits is a number between the two powers. -/
theorem signed_bounds {width n : Nat} (h : n < 2 ^ (width + 1)) :
    -2 ^ width ≤ signed (width + 1) n ∧ signed (width + 1) n < 2 ^ width := by
  have hPow : ((2 ^ width : Nat) : Int) = 2 ^ width := Int.natCast_pow 2 width
  simp only [signed, Nat.add_sub_cancel, pow_succ] at h ⊢
  rw [← hPow]
  split <;> omega

def decode (word : Nat) : Option Inst :=
  let opcode := word % 128
  let rd := word / 128 % 32
  let funct3 := word / 4096 % 8
  let rs := word / 32768 % 32
  let imm := signed 12 (word / 1048576 % 4096)
  if opcode = 0x6f then
    some (.jal rd (signed 21 (word / 2147483648 % 2 * 1048576 + word / 4096 % 256 * 4096 +
      word / 1048576 % 2 * 2048 + word / 2097152 % 1024 * 2)))
  else if opcode = 0x67 ∧ funct3 = 0 then some (.jalr rd rs imm)
  else if opcode = 0x37 then some (.lui rd (word / 4096 % 1048576))
  else if opcode = 0x1b ∧ funct3 = 0 then some (.addiw rd rs imm)
  else if opcode = 0x03 ∧ funct3 = 3 then some (.ld rd rs imm)
  else none

/-- The operands fit into the fields of the instruction's format. -/
def Inst.Valid : Inst → Prop
  | .jal rd offset => rd < 32 ∧ (2 : Int) ∣ offset ∧ -2 ^ 20 ≤ offset ∧ offset < 2 ^ 20
  | .lui rd imm => rd < 32 ∧ imm < 2 ^ 20
  | .jalr rd rs imm | .addiw rd rs imm | .ld rd rs imm =>
      rd < 32 ∧ rs < 32 ∧ -2 ^ 11 ≤ imm ∧ imm < 2 ^ 11

/-- A word with a 12-bit immediate. -/
def iType (imm : Int) (rs funct3 rd opcode : Nat) : Nat :=
  field 12 imm * 1048576 + rs * 32768 + funct3 * 4096 + rd * 128 + opcode

def encode : Inst → Nat
  | .jal rd offset =>
      let imm := field 21 offset
      imm / 1048576 * 2147483648 + imm / 2 % 1024 * 2097152 + imm / 2048 % 2 * 1048576 +
        imm / 4096 % 256 * 4096 + rd * 128 + 0x6f
  | .jalr rd rs offset => iType offset rs 0 rd 0x67
  | .lui rd imm => imm * 4096 + rd * 128 + 0x37
  | .addiw rd rs imm => iType imm rs 0 rd 0x1b
  | .ld rd rs offset => iType offset rs 3 rd 0x03

/-- The fields of a `jal` word. -/
theorem jal_fields {v1 v11 v12 v20 rd word : Nat} (h1 : v1 < 1024) (h11 : v11 < 2) (h12 : v12 < 256)
    (h20 : v20 < 2) (hRd : rd < 32)
    (hWord : v20 * 2147483648 + v1 * 2097152 + v11 * 1048576 + v12 * 4096 + rd * 128 +
      0x6f = word) :
    word % 128 = 0x6f ∧ word / 128 % 32 = rd ∧ word / 4096 % 256 = v12 ∧
      word / 1048576 % 2 = v11 ∧ word / 2097152 % 1024 = v1 ∧ word / 2147483648 % 2 = v20 ∧
      word < 2 ^ 32 := by
  omega

/-- The parts of an even 21-bit immediate. -/
theorem jal_imm_parts {v1 v11 v12 v20 imm : Nat} (h1 : v1 < 1024) (h11 : v11 < 2) (h12 : v12 < 256)
    (h20 : v20 < 2) (hImm : v20 * 1048576 + v12 * 4096 + v11 * 2048 + v1 * 2 = imm) :
    imm / 1048576 = v20 ∧ imm / 4096 % 256 = v12 ∧ imm / 2048 % 2 = v11 ∧ imm / 2 % 1024 = v1 ∧
      imm < 2 ^ 21 := by
  omega

/-- The four fields of a `jal` make up its offset. -/
theorem jal_imm_sum {imm : Nat} (hEven : imm % 2 = 0) :
    imm / 1048576 * 1048576 + imm / 4096 % 256 * 4096 + imm / 2048 % 2 * 2048 +
      imm / 2 % 1024 * 2 = imm := by
  omega

/-- The fields of a `jal` make up its word. -/
theorem jal_word_sum {word : Nat} (hWord : word < 2 ^ 32) (hOpcode : word % 128 = 0x6f) :
    word / 2147483648 % 2 * 2147483648 + word / 2097152 % 1024 * 2097152 +
      word / 1048576 % 2 * 1048576 + word / 4096 % 256 * 4096 + word / 128 % 32 * 128 + 0x6f =
        word := by
  omega

/-- The fields of a word with a 12-bit immediate. -/
theorem iType_fields {imm : Int} {rs funct3 rd opcode word : Nat} (hLow : -2 ^ 11 ≤ imm)
    (hHigh : imm < 2 ^ 11) (hRs : rs < 32) (hFunct : funct3 < 8) (hRd : rd < 32)
    (hOpcode : opcode < 128) (hWord : iType imm rs funct3 rd opcode = word) :
    word % 128 = opcode ∧ word / 128 % 32 = rd ∧ word / 4096 % 8 = funct3 ∧
      word / 32768 % 32 = rs ∧ signed 12 (word / 1048576 % 4096) = imm ∧ word < 2 ^ 32 := by
  have hImm := field_lt 12 imm
  have hField : word / 1048576 % 4096 = field 12 imm := by
    simp only [iType] at hWord
    omega
  rw [hField, signed_field hLow hHigh]
  simp only [iType] at hWord
  omega

/-- A word with a 12-bit immediate is put together from its fields. -/
theorem iType_sum {word funct3 opcode : Nat} (hWord : word < 2 ^ 32)
    (hFunct : word / 4096 % 8 = funct3) (hOpcode : word % 128 = opcode) :
    iType (signed 12 (word / 1048576 % 4096)) (word / 32768 % 32) funct3 (word / 128 % 32) opcode =
      word := by
  have hImm : field 12 (signed 12 (word / 1048576 % 4096)) = word / 1048576 % 4096 :=
    field_signed (by omega)
  rw [iType, hImm]
  omega

/-- Operands that fit come back, from a word of 32 bits. -/
theorem decode_encode {inst : Inst} (h : inst.Valid) :
    encode inst < 2 ^ 32 ∧ decode (encode inst) = some inst := by
  generalize hWord : encode inst = word
  cases inst with
  | jal rd offset =>
      obtain ⟨hRd, hEven, hLow, hHigh⟩ := h
      have hImm := field_lt 21 offset
      have hSigned : signed 21 (field 21 offset) = offset := signed_field hLow hHigh
      have hField : field 21 offset % 2 = 0 := by
        simp only [field]
        omega
      obtain ⟨hOpcode, hDst, h12, h11, h1, h20, hLt⟩ := jal_fields (Nat.mod_lt _ (by decide))
        (Nat.mod_lt _ (by decide)) (Nat.mod_lt _ (by decide)) (by omega) hRd hWord
      refine ⟨hLt, ?_⟩
      simp only [decode, hOpcode, if_true, hDst, h12, h11, h1, h20, jal_imm_sum hField, hSigned]
  | lui rd imm =>
      obtain ⟨hRd, hImm⟩ := h
      simp only [encode] at hWord
      have hOpcode : word % 128 = 0x37 := by omega
      have hDst : word / 128 % 32 = rd := by omega
      have hUpper : word / 4096 % 1048576 = imm := by omega
      exact ⟨by omega, by simp [decode, hOpcode, hDst, hUpper]⟩
  | jalr rd rs offset =>
      obtain ⟨hRd, hRs, hLow, hHigh⟩ := h
      obtain ⟨hOpcode, hDst, hFunct, hSrc, hImm, hLt⟩ :=
        iType_fields hLow hHigh hRs (by decide) hRd (by decide) hWord
      exact ⟨hLt, by simp [decode, hOpcode, hDst, hFunct, hSrc, hImm]⟩
  | addiw rd rs imm =>
      obtain ⟨hRd, hRs, hLow, hHigh⟩ := h
      obtain ⟨hOpcode, hDst, hFunct, hSrc, hImm, hLt⟩ :=
        iType_fields hLow hHigh hRs (by decide) hRd (by decide) hWord
      exact ⟨hLt, by simp [decode, hOpcode, hDst, hFunct, hSrc, hImm]⟩
  | ld rd rs offset =>
      obtain ⟨hRd, hRs, hLow, hHigh⟩ := h
      obtain ⟨hOpcode, hDst, hFunct, hSrc, hImm, hLt⟩ :=
        iType_fields hLow hHigh hRs (by decide) hRd (by decide) hWord
      exact ⟨hLt, by simp [decode, hOpcode, hDst, hFunct, hSrc, hImm]⟩

/-- A word is the encoding of what it decodes to. -/
theorem encode_of_decode {word : Nat} {inst : Inst} (hWord : word < 2 ^ 32)
    (h : decode word = some inst) : encode inst = word := by
  simp only [decode] at h
  split_ifs at h with hJal hJalr hLui hAddiw hLd <;> cases h
  · obtain ⟨h20, h12, h11, h1, hLt⟩ := jal_imm_parts (Nat.mod_lt (word / 2097152) (by decide))
      (Nat.mod_lt (word / 1048576) (by decide)) (Nat.mod_lt (word / 4096) (by decide))
      (Nat.mod_lt (word / 2147483648) (by decide)) rfl
    simp only [encode, field_signed hLt, h20, h12, h11, h1]
    exact jal_word_sum hWord hJal
  · exact iType_sum hWord hJalr.2 hJalr.1
  · simp only [encode]
    omega
  · exact iType_sum hWord hAddiw.2 hAddiw.1
  · exact iType_sum hWord hLd.2 hLd.1

/-- `word` is the instruction word of `inst`: it, and no other 32-bit word, decodes to `inst`. -/
def Encodes (word : Nat) (inst : Inst) : Prop :=
  word < 2 ^ 32 ∧ ∀ other < 2 ^ 32, decode other = some inst ↔ other = word

/-- A valid instruction is encoded by the word of it, and by no other one. -/
theorem encodes_encode {inst : Inst} (h : inst.Valid) : Encodes (encode inst) inst := by
  obtain ⟨hLt, hDecode⟩ := decode_encode h
  refine ⟨hLt, fun other hOther => ⟨fun hSome => ?_, fun hEq => ?_⟩⟩
  · exact (encode_of_decode hOther hSome).symm
  · rw [hEq, hDecode]

/-- The 64-bit register value of a 32-bit result. -/
def sext32 (n : Nat) : Nat := uint64 (int32 n)

/-- What a hart can see: the bytes it fetches, and the doubleword that a load
from an address returns. -/
structure Bus where
  code : Memory
  word : Nat → Nat

structure Hart where
  pc : Nat
  regs : Nat → Nat

/-- Register zero ignores writes. -/
def setReg (regs : Nat → Nat) (rd value : Nat) : Nat → Nat :=
  if rd = 0 then regs else Function.update regs rd value

theorem setReg_zero (regs : Nat → Nat) (value : Nat) : setReg regs 0 value = regs := if_pos rfl

theorem setReg_of_ne {rd : Nat} (h : rd ≠ 0) (regs : Nat → Nat) (value : Nat) :
    setReg regs rd value = Function.update regs rd value := if_neg h

/-- Two writes to a register, the second one computed from the first. -/
theorem setReg_modify (regs : Nat → Nat) (rd value : Nat) (f : Nat → Nat) :
    setReg (setReg regs rd value) rd (f (setReg regs rd value rd)) = setReg regs rd (f value) := by
  by_cases hZero : rd = 0
  · rw [hZero, setReg_zero, setReg_zero, setReg_zero]
  · simp only [setReg_of_ne hZero, Function.update_self, Function.update_idem]

def exec (bus : Bus) (hart : Hart) : Inst → Hart
  | .jal rd offset =>
      ⟨uint64 (hart.pc + offset), setReg hart.regs rd (uint64 (hart.pc + 4))⟩
  | .jalr rd rs offset =>
      ⟨uint64 (hart.regs rs + offset) / 2 * 2, setReg hart.regs rd (uint64 (hart.pc + 4))⟩
  | .lui rd imm => ⟨uint64 (hart.pc + 4), setReg hart.regs rd (sext32 (imm * 4096))⟩
  | .addiw rd rs imm =>
      ⟨uint64 (hart.pc + 4), setReg hart.regs rd (sext32 (uint32 (hart.regs rs + imm)))⟩
  | .ld rd rs offset =>
      ⟨uint64 (hart.pc + 4), setReg hart.regs rd (bus.word (uint64 (hart.regs rs + offset)))⟩

/-- Fetch, decode, execute; `none` for anything but the five instructions. -/
def step (bus : Bus) (hart : Hart) : Option Hart :=
  (decode (wordValue (load bus.code hart.pc 4))).map (exec bus hart)

/-- The hart gets from one state to the other by executing instructions. -/
inductive Reaches (bus : Bus) : Hart → Hart → Prop where
  | refl (hart : Hart) : Reaches bus hart hart
  | next {hart middle final : Hart} (first : step bus hart = some middle)
      (rest : Reaches bus middle final) : Reaches bus hart final

def Holds (m : Memory) (addr inst : Nat) : Prop := load m addr 4 = wordBytes 4 inst

def HoldsAll (m : Memory) (addr : Nat) : List Nat → Prop
  | [] => True
  | inst :: rest => Holds m addr inst ∧ HoldsAll m (addr + 4) rest

/-- A hart that executes `word` at `base` goes on at `target` with its registers unchanged. -/
def Jumps (word base target : Nat) : Prop :=
  ∀ (bus : Bus) (regs : Nat → Nat), Holds bus.code base word →
    step bus ⟨base, regs⟩ = some ⟨target, regs⟩

/-- Wherever a hart executes the two words in a row, its registers change as `effect` says.
Register zero of a hart holds zero. -/
def ExecutesPair (words : Nat × Nat) (effect : (Nat → Nat) → Nat → Nat) : Prop :=
  ∀ (bus : Bus) (hart : Hart), hart.regs 0 = 0 → Holds bus.code hart.pc words.1 →
    Holds bus.code (uint64 (hart.pc + 4)) words.2 →
    (step bus hart).bind (step bus) = some ⟨uint64 (hart.pc + 8), effect hart.regs⟩

/-- A hart executes the instruction whose word it finds at its pc. -/
theorem step_of_holds {bus : Bus} {hart : Hart} {word : Nat} {inst : Inst}
    (hHolds : Holds bus.code hart.pc word) (hEncodes : Encodes word inst) :
    step bus hart = some (exec bus hart inst) := by
  have hLt : word < 256 ^ 4 := hEncodes.1
  have hFetch : wordValue (load bus.code hart.pc 4) = word := by
    rw [hHolds, wordValue_wordBytes, Nat.mod_eq_of_lt hLt]
  rw [step, hFetch, (hEncodes.2 word hEncodes.1).mpr rfl, Option.map_some]

theorem Reaches.head {bus : Bus} {hart final : Hart} {word : Nat} {inst : Inst}
    (hHolds : Holds bus.code hart.pc word) (hEncodes : Encodes word inst)
    (hRest : Reaches bus (exec bus hart inst) final) : Reaches bus hart final :=
  .next (step_of_holds hHolds hEncodes) hRest

/-- Two steps at once. -/
theorem Reaches.bind {bus : Bus} {hart middle final : Hart}
    (hSteps : (step bus hart).bind (step bus) = some middle) (hRest : Reaches bus middle final) :
    Reaches bus hart final := by
  obtain ⟨between, hFirst, hSecond⟩ := Option.bind_eq_some_iff.mp hSteps
  exact .next hFirst (.next hSecond hRest)

theorem Holds.congr {m m' : Memory} {addr inst : Nat} (h : Holds m addr inst)
    (hSame : ∀ b, addr ≤ b → b < addr + 4 → m' b = m b) : Holds m' addr inst := by
  rw [Holds, ← h]
  exact load_congr fun i hi => hSame _ (Nat.le_add_right ..) (by omega)

theorem HoldsAll.congr {m m' : Memory} {addr : Nat} {insts : List Nat} (h : HoldsAll m addr insts)
    (hSame : ∀ b, addr ≤ b → b < addr + 4 * insts.length → m' b = m b) :
    HoldsAll m' addr insts := by
  induction insts generalizing addr with
  | nil => trivial
  | cons inst rest ih =>
      rw [List.length_cons] at hSame
      exact ⟨h.1.congr fun b hLow hHigh => hSame b hLow (by omega),
        ih h.2 fun b hLow hHigh => hSame b (by omega) (by omega)⟩

end Rv64

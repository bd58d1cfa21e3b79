import RiscvCkpt.Base.Rv64
import RiscvCkpt.Restore.UserJmp

/-! The instruction words that the loader builds, under RISC-V decoding. -/
namespace RiscvCkpt

open ByteCodec ByteMemory MachineInt Rv64

theorem storeInsts_outside {m : Memory} {addr b : Nat} {insts : List Nat}
    (h : b < addr ∨ addr + 4 * insts.length ≤ b) : storeInsts m addr insts b = m b :=
  (storeInsts_writes addr insts).outside b (by omega) m

/-- Stored instructions are found where they were stored. -/
theorem holdsAll_storeInsts (m : Memory) (addr : Nat) (insts : List Nat) :
    HoldsAll (storeInsts m addr insts) addr insts := by
  induction insts generalizing m addr with
  | nil => trivial
  | cons inst rest ih =>
      have hFirst : Holds (storeInst m addr inst) addr inst := by
        have hLoad := load_store_self m addr (wordBytes 4 inst)
        rwa [wordBytes_length] at hLoad
      exact ⟨hFirst.congr fun b _ hHigh => storeInsts_outside (Or.inl hHigh), ih _ _⟩

/-- The low 21 bits of the 32-bit offset are those of the distance between the addresses. -/
theorem jal_offset_field {base target : Nat} {distance : Int}
    (hTarget : uint64 (base + distance) = target % 2 ^ 64) :
    uint32 ((target : Int) - base) % 2097152 = field 21 distance := by
  simp only [uint64] at hTarget
  simp only [uint32, field]
  omega

/-- `createJAL` takes of the distance what a `jal` holds. -/
theorem createJAL_eq {base target : Nat} {distance : Int}
    (hTarget : uint64 (base + distance) = target % 2 ^ 64) :
    createJAL base target = encode (.jal 0 distance) := by
  simp only [createJAL, encode, ← jal_offset_field hTarget]
  generalize uint32 ((target : Int) - base) = offset
  have h20 : offset % 2097152 / 1048576 = offset / 1048576 % 2 := by omega
  have h12 : offset % 2097152 / 4096 % 256 = offset / 4096 % 256 := by omega
  have h11 : offset % 2097152 / 2048 % 2 = offset / 2048 % 2 := by omega
  have h1 : offset % 2097152 / 2 % 1024 = offset / 2 % 1024 := by omega
  rw [h20, h12, h11, h1]
  ring

/-- `createJAL` encodes every even distance in reach, also one around the end of the addresses. -/
theorem encodes_createJAL {base target : Nat} {distance : Int}
    (hTarget : uint64 (base + distance) = target % 2 ^ 64) (hEven : (2 : Int) ∣ distance)
    (hLow : -2 ^ 20 ≤ distance) (hHigh : distance < 2 ^ 20) :
    Encodes (createJAL base target) (.jal 0 distance) := by
  rw [createJAL_eq hTarget]
  exact encodes_encode ⟨by decide, hEven, hLow, hHigh⟩

/-- `createJALR` makes a jump to a register. -/
theorem encodes_createJALR {srcreg : Nat} (h : srcreg < 32) :
    Encodes (createJALR srcreg) (.jalr 0 srcreg 0) := by
  have hEq : createJALR srcreg = encode (.jalr 0 srcreg 0) := by
    rw [createJALR, Nat.mod_eq_of_lt h, encode, iType, show field 12 0 = 0 from rfl]
    omega
  rw [hEq]
  exact encodes_encode ⟨by decide, h, by decide, by decide⟩

/-- `createLD` makes a load of a double word. -/
theorem encodes_createLD {dstreg basereg offset : Nat} (hDst : dstreg < 32) (hBase : basereg < 32)
    (hOffset : offset < 2048) :
    Encodes (createLD dstreg basereg offset) (.ld dstreg basereg offset) := by
  have hField : field 12 offset = offset % 4096 := by
    simp only [field]
    omega
  have hEq : createLD dstreg basereg offset = encode (.ld dstreg basereg offset) := by
    rw [createLD, Nat.mod_eq_of_lt hDst, Nat.mod_eq_of_lt hBase, encode, iType, hField]
  rw [hEq]
  exact encodes_encode ⟨hDst, hBase, by omega, by omega⟩

/-- The upper part of a constant, one higher if the lower part counts as negative. -/
def upperPart (imm32 : Nat) : Nat :=
  if imm32 % 4096 / 2048 = 1 then imm32 / 4096 + 1 else imm32 / 4096

/-- The first word of `createImm32` loads the upper part. -/
theorem encodes_createImm32_lui {dstreg imm32 : Nat} (hDst : dstreg < 32) :
    Encodes (createImm32 dstreg imm32).1 (.lui dstreg (upperPart imm32 % 1048576)) := by
  have hEq : (createImm32 dstreg imm32).1 = encode (.lui dstreg (upperPart imm32 % 1048576)) := by
    simp only [createImm32, encode]
    rw [← upperPart]
    omega
  rw [hEq]
  exact encodes_encode ⟨hDst, Nat.mod_lt _ (by decide)⟩

/-- The second word of `createImm32` adds the lower part with its sign. -/
theorem encodes_createImm32_addiw {dstreg imm32 : Nat} (hDst : dstreg < 32) :
    Encodes (createImm32 dstreg imm32).2 (.addiw dstreg dstreg (signed 12 (imm32 % 4096))) := by
  have hLt : imm32 % 4096 < 2 ^ 12 := by omega
  have hField := field_signed hLt
  have hEq : (createImm32 dstreg imm32).2 =
      encode (.addiw dstreg dstreg (signed 12 (imm32 % 4096))) := by
    simp only [createImm32, encode, iType, hField]
    omega
  rw [hEq]
  exact encodes_encode ⟨hDst, hDst, signed_bounds hLt⟩

/-- Upper and signed lower part add up to the constant. -/
theorem upperPart_add_lower (imm32 : Nat) :
    ((upperPart imm32 * 4096 : Nat) + signed 12 (imm32 % 4096) : Int) = imm32 := by
  simp only [upperPart, signed]
  split <;> split <;> omega

/-- Adding in 32 bits sees only the low 32 bits of the first summand. -/
theorem uint32_sext32_add (upper : Nat) (lower : Int) :
    uint32 (sext32 (upper % 1048576 * 4096) + lower) = uint32 ((upper * 4096 : Nat) + lower) := by
  simp only [sext32, uint32, uint64, int32]
  split <;> omega

/-- `lui` and `addiw` make the constant, also where the carry leaves the upper 20 bits. -/
theorem createImm32_value {imm32 : Nat} (h : imm32 < 2 ^ 32) :
    uint32 (sext32 (upperPart imm32 % 1048576 * 4096) + signed 12 (imm32 % 4096)) = imm32 := by
  rw [uint32_sext32_add, upperPart_add_lower, uint32]
  omega

/-- The two words of `createImm32` write the sign extension of the constant. -/
theorem steps_createImm32 {bus : Bus} {hart : Hart} {dstreg imm32 : Nat} (hDst : dstreg < 32)
    (hImm : imm32 < 2 ^ 32) (hLui : Holds bus.code hart.pc (createImm32 dstreg imm32).1)
    (hAddiw : Holds bus.code (uint64 (hart.pc + 4)) (createImm32 dstreg imm32).2) :
    (step bus hart).bind (step bus) =
      some ⟨uint64 (hart.pc + 8), setReg hart.regs dstreg (sext32 imm32)⟩ := by
  have hFirst := step_of_holds hLui (encodes_createImm32_lui hDst)
  have hSecond := @step_of_holds bus (exec bus hart (.lui dstreg (upperPart imm32 % 1048576))) _ _
    hAddiw (encodes_createImm32_addiw hDst)
  have hRegs := setReg_modify hart.regs dstreg (sext32 (upperPart imm32 % 1048576 * 4096))
    fun value => sext32 (uint32 (value + signed 12 (imm32 % 4096)))
  rw [createImm32_value hImm] at hRegs
  rw [hFirst, Option.bind_some, hSecond]
  simp only [exec, uint64_add, add_assoc, hRegs]
  rfl

theorem sext32_of_lt {n : Nat} (h : n < 2 ^ 31) : sext32 n = n := by
  have hExact := uint64_of_lt (Int.natCast_nonneg n) (by omega)
  rw [sext32, int32_of_lt h]
  exact Int.ofNat.inj hExact

@[simp] theorem setReg_a0 (regs : Nat → Nat) (value : Nat) :
    setReg regs 10 value = Function.update regs 10 value := rfl

theorem uint64_natCast_add {n k : Nat} (h : n + k < 2 ^ 64) : uint64 ((n : Int) + k) = n + k := by
  have hExact := uint64_of_lt (Int.natCast_nonneg (n + k)) (by omega)
  exact Int.ofNat.inj hExact

/-- `loadA0` puts the word at `memaddr` into `a0` and changes nothing else. -/
theorem reaches_loadA0 {bus : Bus} {pc memaddr : Nat} {regs : Nat → Nat} {final : Hart}
    (hCode : HoldsAll bus.code pc (loadA0 memaddr)) (hPc : pc + 12 < 2 ^ 64)
    (hPlace : memaddr < 2 ^ 31)
    (hRest : Reaches bus ⟨pc + 12, Function.update regs 10 (bus.word memaddr)⟩ final) :
    Reaches bus ⟨pc, regs⟩ final := by
  obtain ⟨hLui, hAddiw, hLd, -⟩ := hCode
  have hNext : ∀ k : Nat, k ≤ 12 → uint64 ((pc : Int) + k) = pc + k :=
    fun k hk => uint64_natCast_add (by omega)
  have hPlace64 : uint64 ((memaddr : Int) + (0 : Nat)) = memaddr := uint64_natCast_add (by omega)
  rw [← hNext 4 (by decide)] at hAddiw
  have hSteps := @steps_createImm32 bus ⟨pc, regs⟩ 10 memaddr (by decide) (by omega) hLui hAddiw
  rw [sext32_of_lt hPlace, setReg_a0] at hSteps
  refine .bind hSteps ?_
  have hEight : uint64 ((pc : Int) + 8) = pc + 8 := hNext 8 (by decide)
  refine .head (hEight ▸ hLd) (encodes_createLD (by decide) (by decide) (by decide)) ?_
  simp only [exec, setReg_a0, Function.update_self, Function.update_idem, hPlace64, uint64_add,
    add_assoc]
  rw [show ((8 : Int) + 4) = (12 : Nat) from rfl, hNext 12 (by decide)]
  exact hRest

/-- A `createJAL` in reach goes to its target and changes no register. -/
theorem step_createJAL {bus : Bus} {base target : Nat} {regs : Nat → Nat} {distance : Int}
    (hTarget : uint64 (base + distance) = target % 2 ^ 64) (hEven : (2 : Int) ∣ distance)
    (hLow : -2 ^ 20 ≤ distance) (hHigh : distance < 2 ^ 20)
    (hCode : Holds bus.code base (createJAL base target)) :
    step bus ⟨base, regs⟩ = some ⟨target % 2 ^ 64, regs⟩ := by
  rw [step_of_holds hCode (encodes_createJAL hTarget hEven hLow hHigh)]
  simp only [exec, hTarget, setReg_zero]

/-- A jump that `createJAL` makes gets to its target if the target is in reach. -/
theorem reaches_createJAL {bus : Bus} {base target : Nat} {regs : Nat → Nat} {final : Hart}
    (hCode : Holds bus.code base (createJAL base target))
    (hEven : (2 : Int) ∣ (target : Int) - base)
    (hLow : -1048576 ≤ (target : Int) - base) (hHigh : (target : Int) - base < 1048576)
    (hRest : Reaches bus ⟨target % 2 ^ 64, regs⟩ final) : Reaches bus ⟨base, regs⟩ final := by
  have hTarget : uint64 ((base : Int) + ((target : Int) - base)) = target % 2 ^ 64 := by
    rw [add_sub_cancel, uint64]
    omega
  exact .next (step_createJAL hTarget hEven hLow hHigh hCode) hRest

/-- The `jalr` behind a load of `a0` goes to the even address in `a0`. -/
theorem reaches_createJALR {bus : Bus} {pc : Nat} {regs : Nat → Nat} {final : Hart}
    (hCode : Holds bus.code pc (createJALR 10)) (hEven : 2 ∣ regs 10) (hAddr : regs 10 < 2 ^ 64)
    (hRest : Reaches bus ⟨regs 10, regs⟩ final) : Reaches bus ⟨pc, regs⟩ final := by
  refine .head hCode (encodes_createJALR (by decide)) ?_
  have hTarget : uint64 ((regs 10 : Int) + 0) / 2 * 2 = regs 10 := by
    rw [show uint64 ((regs 10 : Int) + 0) = regs 10 from uint64_natCast_add hAddr]
    omega
  simp only [exec, hTarget, setReg_zero]
  exact hRest

/-- Each encoder builds the word of its instruction. `createJAL` takes a hart from `base` to every
`target` in reach. `createImm32` loads the sign extension of its constant into every register but
the hardwired zero, and changes no other one; for register zero it changes none. -/
theorem encoders_inverse :
    (∀ (base target : Nat) (distance : Int), uint64 (base + distance) = target →
      (2 : Int) ∣ distance → -2 ^ 20 ≤ distance → distance < 2 ^ 20 →
      Encodes (createJAL base target) (.jal 0 distance) ∧
        Jumps (createJAL base target) base target) ∧
    (∀ dstreg imm32 : Nat, dstreg < 32 → dstreg ≠ 0 → imm32 < 2 ^ 32 →
      ExecutesPair (createImm32 dstreg imm32)
        fun regs => Function.update regs dstreg (sext32 imm32)) ∧
    (∀ imm32 : Nat, imm32 < 2 ^ 32 → ExecutesPair (createImm32 0 imm32) fun regs => regs) ∧
    (∀ dstreg basereg offset : Nat, dstreg < 32 → basereg < 32 → offset < 2048 →
      Encodes (createLD dstreg basereg offset) (.ld dstreg basereg offset)) ∧
    ∀ srcreg : Nat, srcreg < 32 → Encodes (createJALR srcreg) (.jalr 0 srcreg 0) := by
  refine ⟨?_, ?_, ?_, fun _ _ _ => encodes_createLD, fun _ => encodes_createJALR⟩
  · intro base target distance hTarget hEven hLow hHigh
    have hLt : target < 2 ^ 64 := hTarget ▸ uint64_lt _
    have hMod : uint64 (base + distance) = target % 2 ^ 64 := by rw [hTarget, Nat.mod_eq_of_lt hLt]
    refine ⟨encodes_createJAL hMod hEven hLow hHigh, fun bus regs hCode => ?_⟩
    rw [step_createJAL hMod hEven hLow hHigh hCode, Nat.mod_eq_of_lt hLt]
  · intro dstreg imm32 hDst hNonzero hImm bus hart _ hLui hAddiw
    rw [steps_createImm32 hDst hImm hLui hAddiw, setReg_of_ne hNonzero]
  · intro imm32 hImm bus hart _ hLui hAddiw
    rw [steps_createImm32 (by decide) hImm hLui hAddiw, setReg_zero]

/-- A jump back over the whole reach, a constant whose carry leaves the upper 20 bits, and the
largest offset. -/
theorem encoders_inverse_edges :
    Jumps (createJAL 1048576 0) 1048576 0 ∧
      ExecutesPair (createImm32 31 0xfffff800)
        (fun regs => Function.update regs 31 0xfffffffffffff800) ∧
      Encodes (createLD 1 31 2047) (.ld 1 31 2047) ∧ Encodes (createJALR 31) (.jalr 0 31 0) := by
  obtain ⟨hJal, hImm, -, hLd, hJalr⟩ := encoders_inverse
  exact ⟨(hJal 1048576 0 (-1048576) (by decide) (by decide) (by decide) (by decide)).2,
    hImm 31 0xfffff800 (by decide) (by decide) (by decide),
    hLd 1 31 2047 (by decide) (by decide) (by decide), hJalr 31 (by decide)⟩

/-- Register zero does not take the constant: it still holds zero after `lui` and `addiw`. -/
theorem createImm32_zero_lost :
    ¬ ExecutesPair (createImm32 0 1) fun regs => Function.update regs 0 (sext32 1) := by
  intro hLoads
  obtain ⟨hLui, hAddiw, -⟩ :=
    holdsAll_storeInsts (fun _ => 0) 0 [(createImm32 0 1).1, (createImm32 0 1).2]
  have hClaimed := hLoads ⟨_, fun _ => 0⟩ ⟨0, fun _ => 0⟩ rfl hLui hAddiw
  rw [@steps_createImm32 ⟨_, fun _ => 0⟩ ⟨0, fun _ => 0⟩ 0 1 (by decide) (by decide) hLui hAddiw,
    setReg_zero] at hClaimed
  injection hClaimed with hHart
  injection hHart with _ hRegs
  exact absurd (congrFun hRegs 0) (by decide)

end RiscvCkpt

import RiscvCkpt.Restore.CkptTools
import RiscvCkpt.Restore.JumpedReplay

/-! From the simulator to the end of the replay: the hooks record a run, the checkpoint is
closed and saved, the loader reads the file and the executable, puts the jumps in place and
starts the program. -/
namespace RiscvCkpt

open ByteCodec ByteMemory MachineInt Rv64 CkptInfo Dialogue Fastlz

def regsOf (regs : List Nat) : Nat → Nat := fun x => regs.getD x 0

/-- `loadelf` and the steps 1 to 5 of `read_ckptinfo`: the text ranges, the header, and the
loader in front of step 6. -/
def loadCheckpoint (fastlz : FastLZ) (elf file : List UInt8) (m : Memory) :
    Option (List MemRangeInfo × CkptHeader × Loader) :=
  (readTextinfo file).bind fun textinfo =>
    (readCkptinfo file).bind fun read =>
      (loadMemory fastlz elf textinfo read.1.memrange m read.2).map fun loads =>
        (textinfo, read.1, readCkptsyscall loads.2
          { memory := loads.1
            program_intregs := regsOf read.1.program_intregs
            tempMemory := 0
            runningInfo :=
              { exitpc := read.1.exitpc, callinfo := [], nowcallnum := 0, totalcallnum := 0,
                exitJmpInst := 0, sysJmpinfos := [] } })

/-- `main`, up to the jump into the program; `none` where it ends before. -/
def readckpt (fastlz : FastLZ) (places : Places) (elf file : List UInt8) (m : Memory) :
    Option (CkptHeader × Loader) :=
  (loadCheckpoint fastlz elf file m).bind fun loaded =>
    (processJmp (getRangeInfo loaded.1) places loaded.2.1.npc loaded.2.2).map fun ready =>
      (loaded.2.1, startProgram ready)

/-- The running information that is read from the file of a checkpoint. -/
def CkptInfo.running (ckpt : CkptInfo) : RunningInfo :=
  { exitpc := ckpt.exit_pc, callinfo := saveSysInfo ckpt.sysinfos, nowcallnum := 0,
    totalcallnum := ckpt.sysinfos.length, exitJmpInst := 0, sysJmpinfos := [] }

/-- A byte of an instruction comes from the executable, on a page with an executed instruction.
The program never sees another value there, and nothing that it loads beside brings one. -/
structure FromImage (elf : List UInt8) (phdr : Phdr) (events : List Event) (b : Nat) : Prop where
  above : phdr.p_vaddr ≤ b
  below : b < phdr.p_vaddr + phdr.p_filesz
  page : ∃ pc ∈ executedPcs events, SharesPage pc b
  reads : ∀ v, (∃ event ∈ events, event.Loads (b, v)) → v = imageByte elf phdr b
  beside : Beside events b → imageByte elf phdr b = 0 ∨ LoadedItself events b

/-- A checkpoint that the loader can replay: it fits its file, its jumps find their places, and
the program keeps away from them. Its instructions come from the executable, and a zero that it
loads first from a page of its code is one of the executable. -/
structure Replayable (elf : List UInt8) (phdr : Phdr) (ckpt : CkptInfo) (places : Places)
    (placed : List PCs) (dialogue : List (Request × Reply)) (events : List Event) : Prop where
  saveable : ckpt.Saveable
  packs : ckpt.Packs
  fits : ∀ call ∈ ckpt.sysinfos, call.Fits
  small : (saveSysInfo ckpt.sysinfos).length < 2 ^ 32 - 1
  exit : ckpt.exit_pc ≠ 0
  layout : TextLayout ckpt.textrange
  jumps : JumpPlaces ckpt.textrange ckpt.running ckpt.npc
  found : findMidPoints (getRangeInfo ckpt.textrange) (ckpt.running.pcs ckpt.npc) = some placed
  takeOverAddr : places.takeOverAddr < 2 ^ 31
  a0 : places.a0 < 2 ^ 31
  apart : ∀ event ∈ events, ∀ b, event.Involves b →
    ¬ Patched (ckpt.running.patchedPcs ckpt.npc) placed b
  pcs : ∀ pc ∈ executedPcs events, phdr.p_vaddr ≤ pc ∧ pc < phdr.p_vaddr + phdr.p_filesz
  cut : textStop events ≤ uint64 (int32 (textStop events))
  fetches : EachFetched (fun b later => FromImage elf phdr events b ∧ ¬ JumpBytes placed b ∧
    (ckpt.exit_pc ≤ b ∧ b < ckpt.exit_pc + 4 → 0 < callsIn later)) dialogue
  zeros : ∀ b, ZeroInText events b →
    phdr.p_vaddr ≤ b ∧ b < phdr.p_vaddr + phdr.p_filesz ∧ imageByte elf phdr b = 0

section Restored

variable {elf : List UInt8} {phdr : Phdr} {start : CkptInfo} {stack : Nat → Nat → UInt8}
  {exist : Nat → UInt8} {exit_place exit_pc : Nat} {places : Places} {placed : List PCs}
  {dialogue : List (Request × Reply)} (interval : GuestInterval)

/-- The memory that is restored: every byte that is fetched and every byte that is loaded first
has its value there. -/
theorem Replayable.restored {fastlz : FastLZ} (hImage : ExecImage elf phdr) (hFresh : start.Fresh)
    (hStart : start.Started)
    (hRestorable : Restorable fastlz interval.events
      ((start.hooks stack interval.events).close exist exit_place exit_pc))
    (h : Replayable elf phdr ((start.hooks stack interval.events).close exist exit_place exit_pc)
      places placed dialogue interval.events) (after : List UInt8) (m : Memory) :
    let ckpt := (start.hooks stack interval.events).close exist exit_place exit_pc
    ∃ restored, loadMemory fastlz elf ckpt.textrange ckpt.memrange m
        ((saveFLoadsComp fastlz WriteBuf.empty ckpt.firstloads).1 ++ after) =
          some (restored, after) ∧
      (∀ b, FromImage elf phdr interval.events b → restored b = imageByte elf phdr b) ∧
      ∀ byte, FirstLoad ∅ interval.events byte → restored byte.1 = byte.2 := by
  intro ckpt
  have hRanges := textrange_inFile interval stack exist exit_place exit_pc hStart hImage h.pcs
  obtain ⟨-, hAddr, hCount, -⟩ :=
    savedWords_memory interval stack exist exit_place exit_pc hFresh hRestorable.notNull
  have hZeros : ∀ b, ZeroInText interval.events b → loadelf elf ckpt.textrange m b = 0 := by
    intro b hb
    obtain ⟨hAbove, hBelow, hZero⟩ := h.zeros b hb
    rw [loadelf_byte hImage hAbove hBelow hRanges,
      if_pos ((textrange_holds_iff interval stack exist exit_place exit_pc hStart b).mpr hb.2),
      hZero]
  obtain ⟨-, hFirst⟩ := hRestorable.restores interval stack exist exit_place exit_pc hStart hFresh
    elf hZeros after
  refine ⟨_, loadMemory_eq fastlz elf hAddr (by omega) h.packs.textrange
    (hRestorable.loader.spares interval stack exist exit_place exit_pc hStart)
    hRestorable.blocks after m, fun b hb => ?_, hFirst⟩
  exact restored_code interval stack exist exit_place exit_pc hStart hFresh hRestorable.notNull
    hImage h.pcs h.cut hb.above hb.below hb.page hb.reads hb.beside m

end Restored

section Loading

variable {elf : List UInt8} {phdr : Phdr} {ckpt : CkptInfo} {places : Places} {placed : List PCs}
  {dialogue : List (Request × Reply)} {events : List Event}

/-- The loader in front of step 6. -/
def CkptInfo.loader (ckpt : CkptInfo) (m : Memory) : Loader :=
  { memory := m, program_intregs := regsOf ckpt.intregs, tempMemory := 0,
    runningInfo := ckpt.running }

/-- The loader of a checkpoint that can be replayed has a place for every jump. -/
theorem Replayable.jumpable (h : Replayable elf phdr ckpt places placed dialogue events)
    (m : Memory) :
    Jumpable ckpt.sysinfos ckpt.textrange places (ckpt.loader m) ckpt.npc placed :=
  ⟨⟨rfl, rfl, h.small⟩, rfl, h.fits, h.layout, h.jumps, h.takeOverAddr, h.a0, h.found, h.exit⟩

/-- The registers that the loader gives to the program, where its own have the right values in
`x0` and `f0`. -/
theorem loadContext_eq {saved : List Nat} {regs : Nat → Nat} (hZero : regs 0 = saved.getD 0 0) :
    loadContext (regsOf saved) regs = regsOf saved := by
  funext x
  rw [loadContext]
  split
  · next hx => rw [hx, hZero, regsOf]
  · rfl

/-- The way from the loader to the first instruction. -/
theorem Replayable.starts (h : Replayable elf phdr ckpt places placed dialogue events)
    (takeOver : CodeAddr) (m : Memory) {own : Hart} (hZero : own.regs 0 = ckpt.intregs.getD 0 0) :
    let loader := startProgram (createInsts places (ckpt.loader m) placed)
    Reaches (loader.bus places takeOver) (startJump places takeOver loader
      { own with regs := loadProgramIntRegs loader.program_intregs own.regs }) ⟨ckpt.npc,
      regsOf ckpt.intregs⟩ := by
  intro loader
  have hJumps := h.jumpable m
  obtain ⟨-, hReturns⟩ :=
    @startProgram_starts _ _ _ takeOver _ _ _ hJumps.reads hJumps.layout hJumps.jumps
    hJumps.takeOverAddr hJumps.a0 hJumps.placed
  have hRegs : loader.program_intregs = regsOf ckpt.intregs := by
    simp only [loader, startProgram, updateJmpInst]
    split <;> rfl
  have hReach := hReturns { own with regs := loadProgramIntRegs loader.program_intregs own.regs }
  rw [Nat.mod_eq_of_lt h.saveable.npc, hRegs, loadProgramIntRegs, loadContext_eq hZero,
    Function.update_eq_self] at hReach
  rw [hRegs, loadProgramIntRegs, loadContext_eq hZero]
  exact hReach

end Loading

end RiscvCkpt

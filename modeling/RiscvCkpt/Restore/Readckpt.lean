import RiscvCkpt.Restore.CkptFile
import RiscvCkpt.Restore.MidPointData
import RiscvCkpt.Restore.RecoverFirstLoads
import RiscvCkpt.Restore.TakeoverSyscall

/-! The other restorer. `readckpt` runs on a processor with registers of its own for the
loader, so that a replaced system call is one jump and no midpoints are needed. It handles
a call with a copy of the code of `newreadckpt`, except for the test in front of the exit. -/
namespace RiscvCkpt

open ByteCodec ByteMemory MachineInt

namespace Readckpt

/-- `RunningInfo` of `readckpt` without its performance counters. -/
structure RunningInfo where
  exitpc : Nat
  exit_cause : Nat
  callinfo : List UInt8
  nowcallnum : Nat
  totalcallnum : Nat
  deriving DecidableEq, Repr

/-- The loader. `rtemp2` is the register through which it returns. -/
structure Loader where
  memory : Memory
  program_intregs : Nat → Nat
  rtemp2 : Nat
  runningInfo : RunningInfo

def causeExitInst : Nat := 2

/-- The fields that both loaders have. -/
def RunningInfo.shared (run : RunningInfo) : RiscvCkpt.RunningInfo :=
  ⟨run.exitpc, run.callinfo, run.nowcallnum, run.totalcallnum, 0, []⟩

/-- `read_ckptsyscall` of `readckpt`, which replaces the recorded system calls at once. -/
def readCkptsyscall (jmpRTemp3Inst : Nat) (rest : List UInt8) (loader : Loader) : Loader :=
  let runinfo :=
    { loader.runningInfo with callinfo := rest, nowcallnum := 0, totalcallnum := wordAt 8 rest 0 }
  { loader with
    memory := (List.range (runinfo.shared.diffcallnum + 1).toNat).foldl
      (fun m i => storeInst m (wordAt 8 rest (runinfo.shared.infoaddr i)) jmpRTemp3Inst)
      loader.memory
    runningInfo := runinfo }

def RunningInfo.armsExit (run : RunningInfo) : Bool :=
  run.nowcallnum + 1 = run.totalcallnum ∧ run.exit_cause = causeExitInst ∧ run.exitpc ≠ 0

/-- `takeoverSyscall` of `readckpt`, entered with these registers; `none` where it exits. -/
def takeoverSyscall (jmpRTemp3Inst : Nat) (regs : Nat → Nat) (loader : Loader) : Option Loader :=
  let runinfo := loader.runningInfo
  let saved := saveProgramIntRegs regs loader.program_intregs
  if runinfo.nowcallnum ≥ runinfo.totalcallnum then none
  else
    let sysidx := runinfo.shared.sysidx runinfo.nowcallnum
    let infos := recordAt runinfo.callinfo (runinfo.shared.infoaddr sysidx)
    let saved := Function.update saved 10 infos.p0
    if saved 17 ≠ infos.num / 2 ^ 32 then none
    else
      let saved := if infos.data_offset % 256 ≠ 0 then Function.update saved 10 infos.ret else saved
      let written := writeCallData runinfo.callinfo infos loader.memory
      some
        { memory := if runinfo.armsExit then storeInst written runinfo.exitpc jmpRTemp3Inst
          else written
          program_intregs := saved
          rtemp2 := (infos.pc + 4) % 2 ^ 64
          runningInfo := { runinfo with nowcallnum := runinfo.nowcallnum + 1 } }

end Readckpt

/-- The test in front of the store at `exitpc` in `newreadckpt`. -/
def RunningInfo.armsExit (run : RunningInfo) : Bool := run.nowcallnum + 1 = run.totalcallnum

def RunningInfo.due (run : RunningInfo) : SyscallRecord :=
  recordAt run.callinfo (run.infoaddr (run.sysidx run.nowcallnum))

/-- The entry through which a takeover returns. -/
def RunningInfo.entry (run : RunningInfo) : JmpRepInfo :=
  run.sysJmpinfos.getD (run.sysidx run.nowcallnum + 1) ⟨0, 0, 0⟩

/-- No call is due, or another one. -/
def RunningInfo.refuses (run : RunningInfo) (regs : Nat → Nat) : Bool :=
  run.nowcallnum ≥ run.totalcallnum ∨ regs 17 ≠ run.due.num / 2 ^ 32

def SyscallRecord.results (infos : SyscallRecord) (saved : Nat → Nat) : Nat → Nat :=
  Function.update saved 10 (if infos.data_offset % 256 ≠ 0 then infos.ret else infos.p0)

theorem saved_a7 (regs program_intregs : Nat → Nat) (p0 : Nat) :
    Function.update (saveProgramIntRegs regs program_intregs) 10 p0 17 = regs 17 :=
  Function.update_of_ne (by decide) ..

/-- The registers behind a takeover are those of the record. -/
theorem results_eq (infos : SyscallRecord) (saved : Nat → Nat) :
    (if infos.data_offset % 256 ≠ 0 then
      Function.update (Function.update saved 10 infos.p0) 10 infos.ret
    else Function.update saved 10 infos.p0) = infos.results saved := by
  rw [SyscallRecord.results]
  split
  · exact Function.update_idem ..
  · rfl

/-- A takeover of `newreadckpt`. The jump is stored at `exitpc` under its test and no other. -/
theorem takeoverSyscall_eq (regs : Nat → Nat) (loader : Loader) :
    takeoverSyscall regs loader =
      if loader.runningInfo.refuses regs then none
      else
        let run := loader.runningInfo
        let handled :=
          storeInst (writeCallData run.callinfo run.due loader.memory) run.entry.jal_addr
          run.entry.jal_inst
        some
          { memory := if run.armsExit then storeInst handled run.exitpc run.exitJmpInst else handled
            program_intregs := run.due.results (saveProgramIntRegs regs loader.program_intregs)
            tempMemory := run.entry.jalr_target
            runningInfo := { run with nowcallnum := run.nowcallnum + 1 } } := by
  simp only [takeoverSyscall, saved_a7, results_eq, RunningInfo.refuses, RunningInfo.armsExit,
    decide_eq_true_eq]
  by_cases hOver : loader.runningInfo.nowcallnum ≥ loader.runningInfo.totalcallnum
  · rw [if_pos hOver, if_pos (Or.inl hOver)]
  · rw [if_neg hOver]
    by_cases hNum : regs 17 ≠ loader.runningInfo.due.num / 2 ^ 32
    · rw [if_pos (Or.inr hNum)]
      exact if_pos hNum
    · rw [if_neg (not_or.mpr ⟨hOver, hNum⟩)]
      refine (if_neg hNum).trans (congrArg some ?_)
      split <;> rfl

/-- A takeover of `readckpt`. -/
theorem Readckpt.takeoverSyscall_eq (jmpRTemp3Inst : Nat) (regs : Nat → Nat)
    (loader : Readckpt.Loader) :
    Readckpt.takeoverSyscall jmpRTemp3Inst regs loader =
      if loader.runningInfo.shared.refuses regs then none
      else
        let run := loader.runningInfo
        let written := writeCallData run.callinfo run.shared.due loader.memory
        some
          { memory := if run.armsExit then storeInst written run.exitpc jmpRTemp3Inst else written
            program_intregs :=
              run.shared.due.results (saveProgramIntRegs regs loader.program_intregs)
            rtemp2 := (run.shared.due.pc + 4) % 2 ^ 64
            runningInfo := { run with nowcallnum := run.nowcallnum + 1 } } := by
  simp only [Readckpt.takeoverSyscall, saved_a7, results_eq, RunningInfo.refuses, decide_eq_true_eq]
  by_cases hOver : loader.runningInfo.nowcallnum ≥ loader.runningInfo.totalcallnum
  · rw [if_pos hOver]
    exact (if_pos (Or.inl hOver)).symm
  · rw [if_neg hOver]
    by_cases hNum : regs 17 ≠ loader.runningInfo.shared.due.num / 2 ^ 32
    · rw [if_pos (Or.inr hNum)]
      exact if_pos hNum
    · have hGo : ¬ (loader.runningInfo.shared.nowcallnum ≥ loader.runningInfo.shared.totalcallnum ∨
          regs 17 ≠ loader.runningInfo.shared.due.num / 2 ^ 32) := not_or.mpr ⟨hOver, hNum⟩
      rw [if_neg hGo]
      exact if_neg hNum

/-- The loaders are in the same state, up to the places that they have patched for
themselves. The jumps behind the calls of `newreadckpt` are among those. -/
structure SameState (patched : Nat → Prop) (new : Loader) (old : Readckpt.Loader) : Prop where
  memory : ∀ b, ¬ patched b → new.memory b = old.memory b
  intregs : new.program_intregs = old.program_intregs
  shared : old.runningInfo.shared = { new.runningInfo with exitJmpInst := 0, sysJmpinfos := [] }
  entries : ∀ k < new.runningInfo.totalcallnum, ∃ entry,
    new.runningInfo.sysJmpinfos[new.runningInfo.sysidx k + 1]? = some entry ∧
      ∀ b, entry.jal_addr ≤ b → b < entry.jal_addr + 4 → patched b

/-- Both exit, or both go on with the same registers, the same call counter and the same
memory outside of the patched places, and both or neither have stored a jump at `exitpc`. -/
def HandledAlike (patched : Nat → Prop) (jmpRTemp3Inst : Nat) (regs : Nat → Nat) (new : Loader)
    (old : Readckpt.Loader) : Prop :=
  match takeoverSyscall regs new, Readckpt.takeoverSyscall jmpRTemp3Inst regs old with
  | none, none => True
  | some newAfter, some oldAfter =>
      newAfter.program_intregs = oldAfter.program_intregs ∧
      newAfter.runningInfo.nowcallnum = oldAfter.runningInfo.nowcallnum ∧
      new.runningInfo.armsExit = old.runningInfo.armsExit ∧
      ∀ b, ¬ patched b → ¬ (new.runningInfo.exitpc ≤ b ∧ b < new.runningInfo.exitpc + 4 ∧
        new.runningInfo.armsExit = true) → newAfter.memory b = oldAfter.memory b
  | _, _ => False

section SameState

variable {patched : Nat → Prop} {new : Loader} {old : Readckpt.Loader}
  (h : SameState patched new old)

include h

theorem SameState.refuses (regs : Nat → Nat) :
    old.runningInfo.shared.refuses regs = new.runningInfo.refuses regs := by
  rw [h.shared]
  rfl

theorem SameState.due : old.runningInfo.shared.due = new.runningInfo.due := by
  rw [h.shared]
  rfl

theorem SameState.counters : old.runningInfo.nowcallnum = new.runningInfo.nowcallnum ∧
    old.runningInfo.totalcallnum = new.runningInfo.totalcallnum ∧
    old.runningInfo.exitpc = new.runningInfo.exitpc ∧
    old.runningInfo.callinfo = new.runningInfo.callinfo := by
  have hShared := h.shared
  rw [Readckpt.RunningInfo.shared, RunningInfo.mk.injEq] at hShared
  exact ⟨hShared.2.2.1, hShared.2.2.2.1, hShared.1, hShared.2.1⟩

/-- The return jump is patched. -/
theorem SameState.entry_patched {regs : Nat → Nat} (hGo : new.runningInfo.refuses regs = false)
    {b : Nat}
    (hLow : new.runningInfo.entry.jal_addr ≤ b) (hHigh : b < new.runningInfo.entry.jal_addr + 4) :
    patched b := by
  have hLeft : new.runningInfo.nowcallnum < new.runningInfo.totalcallnum := by
    rw [RunningInfo.refuses, decide_eq_false_iff_not, not_or] at hGo
    exact Nat.not_le.mp hGo.1
  obtain ⟨entry, hEntry, hPatched⟩ := h.entries _ hLeft
  have hSame : new.runningInfo.entry = entry := by
    rw [RunningInfo.entry, List.getD_eq_getElem?_getD, hEntry, Option.getD_some]
  rw [hSame] at hLow hHigh
  exact hPatched b hLow hHigh

/-- The two tests differ for an exit pc of zero only. -/
theorem SameState.armsExit_iff (hCause : old.runningInfo.exit_cause = Readckpt.causeExitInst) :
    new.runningInfo.armsExit = old.runningInfo.armsExit ↔
      (new.runningInfo.armsExit = true → new.runningInfo.exitpc ≠ 0) := by
  obtain ⟨hNow, hTotal, hExitpc, -⟩ := h.counters
  simp only [RunningInfo.armsExit, Readckpt.RunningInfo.armsExit, hNow, hTotal, hExitpc,
    hCause, true_and, decide_eq_true_eq, decide_eq_decide]
  exact ⟨fun hSame hLast => (hSame.mp hLast).2,
    fun hNonzero => ⟨fun hLast => ⟨hLast, hNonzero hLast⟩, And.left⟩⟩

/-- Outside of the patched places and the exit, both leave the same bytes. -/
theorem SameState.handled_memory {regs : Nat → Nat} (hGo : new.runningInfo.refuses regs = false)
    {b : Nat} (hb : ¬ patched b) :
    storeInst (writeCallData new.runningInfo.callinfo new.runningInfo.due new.memory)
        new.runningInfo.entry.jal_addr new.runningInfo.entry.jal_inst b =
      writeCallData old.runningInfo.callinfo old.runningInfo.shared.due old.memory b := by
  have hWritten : writeCallData new.runningInfo.callinfo new.runningInfo.due new.memory b =
      writeCallData new.runningInfo.callinfo new.runningInfo.due old.memory b := by
    simp only [writeCallData]
    split
    · split
      · simp only [store, h.memory b hb]
      · exact h.memory b hb
    · exact h.memory b hb
  rw [h.due, h.counters.2.2.2, ← hWritten]
  exact (storeInst_writes _ _).outside b (fun hIn => hb (h.entry_patched hGo hIn.1 hIn.2)) _

/-- Both loaders leave the same memory outside of the places they patch. -/
theorem SameState.armed_memory {regs : Nat → Nat} (hGo : new.runningInfo.refuses regs = false)
    (hArms : new.runningInfo.armsExit = old.runningInfo.armsExit) (jmpRTemp3Inst : Nat) {b : Nat}
    (hb : ¬ patched b)
    (hExit : ¬ (new.runningInfo.exitpc ≤ b ∧ b < new.runningInfo.exitpc + 4 ∧
      new.runningInfo.armsExit = true)) :
    (if new.runningInfo.armsExit then
      storeInst (storeInst (writeCallData new.runningInfo.callinfo new.runningInfo.due new.memory)
        new.runningInfo.entry.jal_addr new.runningInfo.entry.jal_inst) new.runningInfo.exitpc
        new.runningInfo.exitJmpInst
    else storeInst (writeCallData new.runningInfo.callinfo new.runningInfo.due new.memory)
      new.runningInfo.entry.jal_addr new.runningInfo.entry.jal_inst) b =
    (if old.runningInfo.armsExit then
      storeInst (writeCallData old.runningInfo.callinfo old.runningInfo.shared.due old.memory)
        old.runningInfo.exitpc jmpRTemp3Inst
    else writeCallData old.runningInfo.callinfo old.runningInfo.shared.due old.memory) b := by
  have hHandled := h.handled_memory hGo hb
  rw [← hArms, h.counters.2.2.1]
  split
  · next hArmed =>
      have hOut : ¬ (new.runningInfo.exitpc ≤ b ∧ b < new.runningInfo.exitpc + 4) :=
        fun hIn => hExit ⟨hIn.1, hIn.2, hArmed⟩
      rw [(storeInst_writes _ _).outside b hOut, (storeInst_writes _ _).outside b hOut]
      exact hHandled
  · exact hHandled

/-- One call in both loaders. -/
theorem SameState.handledAlike_iff (hCause : old.runningInfo.exit_cause = Readckpt.causeExitInst)
    (jmpRTemp3Inst : Nat) (regs : Nat → Nat) :
    HandledAlike patched jmpRTemp3Inst regs new old ↔
      (new.runningInfo.refuses regs = false → new.runningInfo.armsExit = true →
        new.runningInfo.exitpc ≠ 0) := by
  rw [HandledAlike, takeoverSyscall_eq, Readckpt.takeoverSyscall_eq, h.refuses]
  by_cases hRefuses : new.runningInfo.refuses regs = true
  · rw [if_pos hRefuses, if_pos hRefuses]
    exact iff_of_true trivial fun hGo => absurd (hRefuses.symm.trans hGo) Bool.noConfusion
  · have hGo : new.runningInfo.refuses regs = false := Bool.eq_false_iff.mpr hRefuses
    rw [if_neg hRefuses, if_neg hRefuses]
    refine Iff.trans ?_
      ((h.armsExit_iff hCause).trans ⟨fun hNonzero _ => hNonzero, fun hNonzero => hNonzero hGo⟩)
    constructor
    · exact fun hAlike => hAlike.2.2.1
    · intro hArms
      refine ⟨?_, congrArg (· + 1) h.counters.1.symm, hArms, fun b hb hExit => ?_⟩
      · rw [h.due, h.intregs]
      · exact h.armed_memory hGo hArms jmpRTemp3Inst hb hExit

/-- The loaders stay in the same state. The exit is patched from its arming on. -/
theorem SameState.step (hArms : new.runningInfo.armsExit = old.runningInfo.armsExit)
    {jmpRTemp3Inst : Nat} {regs : Nat → Nat} {newAfter : Loader} {oldAfter : Readckpt.Loader}
    (hNew : takeoverSyscall regs new = some newAfter)
    (hOld : Readckpt.takeoverSyscall jmpRTemp3Inst regs old = some oldAfter) :
    SameState (fun b => patched b ∨ new.runningInfo.exitpc ≤ b ∧ b < new.runningInfo.exitpc + 4 ∧
      new.runningInfo.armsExit = true) newAfter oldAfter := by
  rw [takeoverSyscall_eq] at hNew
  rw [Readckpt.takeoverSyscall_eq, h.refuses] at hOld
  by_cases hRefuses : new.runningInfo.refuses regs = true
  · rw [if_pos hRefuses] at hNew
    exact absurd hNew (Option.some_ne_none _).symm
  · rw [if_neg hRefuses] at hNew hOld
    obtain rfl := Option.some.inj hNew
    obtain rfl := Option.some.inj hOld
    have hGo : new.runningInfo.refuses regs = false := Bool.eq_false_iff.mpr hRefuses
    constructor
    · intro b hb
      rw [not_or] at hb
      exact h.armed_memory hGo hArms jmpRTemp3Inst hb.1 hb.2
    · rw [h.due, h.intregs]
    · exact congrArg (fun run => { run with nowcallnum := run.nowcallnum + 1 }) h.shared
    · intro k hk
      obtain ⟨entry, hEntry, hPatched⟩ := h.entries k hk
      exact ⟨entry, hEntry, fun b hLow hHigh => Or.inl (hPatched b hLow hHigh)⟩

end SameState

/-- The start of a replay. Both loaders have read the section of a checkpoint into the same
memory; `newreadckpt` has placed its jumps, `readckpt` has replaced the calls. -/
theorem ready_sameState {sysinfos : List SyscallInfo} (hFits : ∀ info ∈ sysinfos, info.Fits)
    (hSection : (saveSysInfo sysinfos).length < 2 ^ 32 - 1) {freeRanges : List MemRangeInfo}
    (places : Places) {npc : Nat} {new : Loader} {old : Readckpt.Loader} {placed : List PCs}
    (hPlaced : findMidPoints freeRanges
      ((readCkptsyscall (saveSysInfo sysinfos) new).runningInfo.pcs npc) = some placed)
    (hMemory : new.memory = old.memory) (hIntregs : new.program_intregs = old.program_intregs)
    (hExitpc : new.runningInfo.exitpc = old.runningInfo.exitpc) (jmpRTemp3Inst : Nat) :
    SameState (JumpBytes placed)
      (createInsts places (readCkptsyscall (saveSysInfo sysinfos) new) placed)
      (Readckpt.readCkptsyscall jmpRTemp3Inst (saveSysInfo sysinfos) old) := by
  have hLength := saveSysInfo_length sysinfos
  have hReads : ReadsCalls sysinfos (readCkptsyscall (saveSysInfo sysinfos) new).runningInfo :=
    ⟨rfl, saveSysInfo_total (by omega), hSection⟩
  have hDiff := hReads.diffcallnum
  have hRecord : ∀ i (hi : i < (storedCalls sysinfos).length), ∃ p, placed[i + 1]? = some p ∧
      i + 1 + 1 < placed.length ∧
      p.pc = wordAt 8 (saveSysInfo sysinfos)
        ((readCkptsyscall (saveSysInfo sysinfos) new).runningInfo.infoaddr i) ∧
      (createInsts places (readCkptsyscall (saveSysInfo sysinfos) new)
        placed).runningInfo.sysJmpinfos[i + 1]? =
        some (jmpInfo (i + 1) p) := by
    intro i hi
    have hStored := List.getElem?_eq_getElem hi
    obtain ⟨p, hp, hLast, hPc, hEntry⟩ := hReads.entry places hFits hPlaced hStored
    exact ⟨p, hp, hLast, hPc.trans (congrArg CallKey.pc (hReads.callKey hFits hStored)).symm,
      hEntry⟩
  have hIdx : ∀ k < (readCkptsyscall (saveSysInfo sysinfos) new).runningInfo.totalcallnum,
      (readCkptsyscall (saveSysInfo sysinfos) new).runningInfo.sysidx k <
        (storedCalls sysinfos).length :=
    fun k hk => (hReads.sysidx_range _).mpr ⟨k, hk, rfl⟩
  generalize saveSysInfo sysinfos = bytes at *
  constructor
  · intro b hb
    rw [createInsts_outside places _ hb]
    -- `readckpt` writes at the recorded calls, which are among the patched places
    have hCalls := @Writes.foldl _ (fun m i => storeInst m (wordAt 8 bytes
      ((readCkptsyscall bytes new).runningInfo.infoaddr i)) jmpRTemp3Inst) _
      (List.range ((readCkptsyscall bytes new).runningInfo.diffcallnum + 1).toNat)
      fun i _ => storeInst_writes _ jmpRTemp3Inst
    refine Eq.trans ?_ (hCalls.outside b ?_ old.memory).symm
    · exact congrFun hMemory b
    · rintro ⟨i, hi, hLow, hHigh⟩
      rw [List.mem_range, hDiff, Int.toNat_natCast] at hi
      obtain ⟨p, hp, hLast, hPc, -⟩ := hRecord i hi
      refine hb (Or.inr (Or.inl ⟨p, List.mem_of_getElem? (i := i) ?_, hPc ▸ hLow, hPc ▸ hHigh⟩))
      rw [List.getElem?_dropLast, List.length_drop, if_pos (by omega), List.getElem?_drop,
        Nat.add_comm, hp]
  · exact hIntregs
  · exact congrArg (fun exitpc => RunningInfo.mk exitpc bytes 0 (wordAt 8 bytes 0) 0 [])
      hExitpc.symm
  · intro k hk
    obtain ⟨p, hp, hLast, -, hEntry⟩ := hRecord _ (hIdx k hk)
    refine ⟨_, hEntry, fun b hLow hHigh => Or.inr (Or.inr ⟨p, ?_, ?_⟩)⟩
    · apply List.mem_of_getElem? (i := (readCkptsyscall bytes new).runningInfo.sysidx k + 1)
      rw [List.getElem?_dropLast, if_pos (by omega), hp]
    · simp only [jmpInfo] at hLow hHigh
      omega

/-- The two restorers on one call. From any state that they share, with the exit fields of a
saved checkpoint, they handle the call alike unless it is the last one and the checkpoint
has no exit pc. -/
theorem takeovers_agree_iff {info : CkptInfo} (hSaved : info.Saveable)
    (hText : info.textrange.length < 2 ^ 64) {ckptstartnum : Option Nat} {fastlz : FastLZ}
    {buf : WriteBuf} {header : CkptHeader} {rest : List UInt8}
    (hRead : readCkptinfo (info.saveCkptInfo ckptstartnum fastlz buf).1 = some (header, rest))
    {patched : Nat → Prop} {new : Loader} {old : Readckpt.Loader}
    (hSame : SameState patched new old) (hExitpc : new.runningInfo.exitpc = header.exitpc)
    (hCause : old.runningInfo.exit_cause = header.exit_cause) (jmpRTemp3Inst : Nat)
    (regs : Nat → Nat) :
    HandledAlike patched jmpRTemp3Inst regs new old ↔
      (new.runningInfo.refuses regs = false → info.exit_pc = 0 →
        new.runningInfo.nowcallnum + 1 ≠ new.runningInfo.totalcallnum) := by
  rw [readCkptinfo_saved ckptstartnum fastlz buf hSaved hText, Option.map_eq_some_iff] at hRead
  obtain ⟨ranges, -, hHeader⟩ := hRead
  obtain ⟨rfl, -⟩ := Prod.mk.inj hHeader
  have hExitInst : old.runningInfo.exit_cause = Readckpt.causeExitInst :=
    hCause.trans (packed_cause _)
  rw [hSame.handledAlike_iff hExitInst, hExitpc, RunningInfo.armsExit, decide_eq_true_eq]
  exact forall_congr' fun _ =>
    ⟨fun h hZero hLast => h hLast hZero, fun h hLast hZero => h hZero hLast⟩

def oneCall : List SyscallInfo :=
  [{ pc := 0x10010, num := 64, ret := 5, hasret := true, params := [1] }]

def callCkpt (exit_pc : Nat) : CkptInfo :=
  { sliceCkpt 1000 100 with sysinfos := oneCall, exit_pc := exit_pc }

def callLoader (exitpc : Nat) : Loader :=
  readCkptsyscall (saveSysInfo oneCall) ⟨zero, fun _ => 0, 0, ⟨exitpc, [], 0, 0, 0, []⟩⟩

def callPlaced (exitpc : Nat) : List PCs :=
  (findMidPoints [⟨0x11000, 0x1000⟩] ((callLoader exitpc).runningInfo.pcs 0x10000)).getD []

def jmpRTemp3 : Nat := 0x04018013

def callNew (exitpc : Nat) : Loader :=
  createInsts samplePlaces (callLoader exitpc) (callPlaced exitpc)

def callOld (exitpc : Nat) : Readckpt.Loader :=
  Readckpt.readCkptsyscall jmpRTemp3 (saveSysInfo oneCall)
    ⟨zero, fun _ => 0, 0, ⟨exitpc, 2, [], 0, 0⟩⟩

theorem callCkpt_saveable {exit_pc : Nat} (h : exit_pc < 2 ^ 64) : (callCkpt exit_pc).Saveable := by
  have hSaved := sliceCkpt_saveable (show 1000 < 2 ^ 64 by decide) (show 100 ≤ 1000 by decide)
  exact { hSaved with exit_pc := h }

/-- The exit fields that both loaders read. -/
theorem callCkpt_read {exit_pc : Nat} (h : exit_pc < 2 ^ 64) (fastlz : FastLZ) (buf : WriteBuf) :
    ∃ header rest, readCkptinfo ((callCkpt exit_pc).saveCkptInfo none fastlz buf).1 =
      some (header, rest) ∧
      header.exitpc = exit_pc ∧ header.exit_cause = 2 := by
  have hSaved := callCkpt_saveable h
  have hText : (callCkpt exit_pc).textrange = (sliceCkpt 1000 100).textrange := rfl
  have hMem : (callCkpt exit_pc).memrange = (sliceCkpt 1000 100).memrange := rfl
  have hRead := readCkptinfo_saved none fastlz buf hSaved (by rw [hText]; decide +kernel)
  rw [readMemrange_saved none fastlz buf hSaved (by rw [hMem]; decide +kernel),
    Option.map_some] at hRead
  exact ⟨_, _, hRead, rfl, packed_cause _⟩

theorem call_sameState {exitpc : Nat} (h : (findMidPoints [⟨0x11000, 0x1000⟩]
      ((callLoader exitpc).runningInfo.pcs 0x10000)).isSome) :
    SameState (JumpBytes (callPlaced exitpc)) (callNew exitpc) (callOld exitpc) := by
  have hFits : ∀ info ∈ oneCall, info.Fits := by
    intro info hInfo
    rw [oneCall, List.mem_singleton] at hInfo
    subst hInfo
    constructor <;> decide
  obtain ⟨placed, hPlaced⟩ := Option.isSome_iff_exists.mp h
  have hCalled : callPlaced exitpc = placed := by rw [callPlaced, hPlaced, Option.getD_some]
  rw [callNew, hCalled]
  exact @ready_sameState oneCall hFits (by decide +kernel) _ samplePlaces 0x10000
    ⟨zero, fun _ => 0, 0, ⟨exitpc, [], 0, 0, 0, []⟩⟩
    ⟨zero, fun _ => 0, 0, ⟨exitpc, 2, [], 0, 0⟩⟩ placed hPlaced rfl rfl rfl jmpRTemp3

/-- With an exit behind the call, the restorers agree on it. -/
theorem takeovers_agree_write :
    HandledAlike (JumpBytes (callPlaced 0x10020)) jmpRTemp3 (fun _ => 64) (callNew 0x10020)
      (callOld 0x10020) := by
  obtain ⟨header, rest, hRead, hExitpc, hCause⟩ :=
    callCkpt_read (show 0x10020 < 2 ^ 64 by decide) storeLZ WriteBuf.empty
  refine (takeovers_agree_iff (callCkpt_saveable (by decide)) (by decide +kernel) hRead
    (call_sameState (by decide +kernel)) hExitpc.symm hCause.symm jmpRTemp3 _).mpr ?_
  exact fun _ hZero => absurd hZero (by decide)

/-- Without one, `newreadckpt` stores a jump at address zero and `readckpt` does not. -/
theorem takeovers_differ :
    (callCkpt 0).Saveable ∧
    (∀ fastlz buf, ∃ header rest,
      readCkptinfo ((callCkpt 0).saveCkptInfo none fastlz buf).1 = some (header, rest) ∧
        header.exitpc = 0 ∧ header.exit_cause = 2) ∧
    SameState (JumpBytes (callPlaced 0)) (callNew 0) (callOld 0) ∧
    (callNew 0).runningInfo.armsExit = true ∧ (callOld 0).runningInfo.armsExit = false ∧
    ¬ HandledAlike (JumpBytes (callPlaced 0)) jmpRTemp3 (fun _ => 64) (callNew 0) (callOld 0) := by
  have hSame : SameState (JumpBytes (callPlaced 0)) (callNew 0) (callOld 0) :=
    call_sameState (by decide +kernel)
  refine ⟨callCkpt_saveable (by decide), callCkpt_read (by decide), hSame, by decide +kernel,
    by decide +kernel, fun hAlike => ?_⟩
  exact (hSame.handledAlike_iff rfl jmpRTemp3 _).mp hAlike (by decide +kernel)
    (by decide +kernel) rfl

end RiscvCkpt

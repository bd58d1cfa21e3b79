import RiscvCkpt.Restore.MappingReplay
import RiscvCkpt.Restore.ReplayedRun

/-! The replay under `newreadckpt`. The system calls have been replaced by jumps over the midpoints
to `takeoverSyscall`, and a jump that is written anew for every call leads back. -/
namespace RiscvCkpt

open ByteCodec ByteMemory MachineInt Rv64 CkptInfo Dialogue

/-- The byte belongs to the output of the call that is due. -/
def Loader.Outputs (loader : Loader) (b : Nat) : Prop :=
  let run := loader.runningInfo
  let due := callKeyAt run.callinfo (run.infoaddr (run.sysidx run.nowcallnum))
  due.bufaddr ≠ 0 ∧ due.bufaddr ≤ b ∧ b < due.bufaddr + due.data.length

/-- A call is the jump that has been put in its place, `takeoverSyscall`, which writes the output
of the call where it is mapped, and the way back with the registers of the program, whatever the
loader has in its own. -/
structure TakenByJumps (places : Places) (takeOver : CodeAddr) (mapped : Nat → Prop)
    (loader : Loader) (pc : Nat) (regs : Nat → Nat) (npc : Nat) (regs' : Nat → Nat)
    (after : Loader) : Prop where
  outputs : ∀ b, loader.Outputs b → mapped b
  enters : ∃ entered, Reaches (loader.bus places takeOver) ⟨pc, regs⟩ ⟨takeOver, entered⟩ ∧
    takeoverSyscall entered loader = some after
  returns : ∀ own : Hart, own.regs 0 = regs 0 → Reaches (after.bus places takeOver)
    (startJump places takeOver after { own with
      regs := loadProgramIntRegs after.program_intregs own.regs })
    ⟨npc, regs'⟩

/-- A loader in front of step 6, with the places for the jumps. -/
structure Jumpable (calls : List SyscallInfo) (ranges : List MemRangeInfo) (places : Places)
    (loaded : Loader) (npc : Nat) (placed : List PCs) : Prop where
  reads : ReadsCalls calls loaded.runningInfo
  first : loaded.runningInfo.nowcallnum = 0
  fits : ∀ call ∈ calls, call.Fits
  layout : TextLayout ranges
  jumps : JumpPlaces ranges loaded.runningInfo npc
  takeOverAddr : places.takeOverAddr < 2 ^ 31
  a0 : places.a0 < 2 ^ 31
  placed : findMidPoints (getRangeInfo ranges) (loaded.runningInfo.pcs npc) = some placed
  exitpc : loaded.runningInfo.exitpc ≠ 0

/-- The byte holds a part of a jump behind `k` calls. The exit is replaced behind the last one. -/
def Overwritten (calls : List SyscallInfo) (loaded : Loader) (placed : List PCs) (k b : Nat) :
    Prop :=
  JumpBytes placed b ∨
    k = calls.length ∧ loaded.runningInfo.exitpc ≤ b ∧ b < loaded.runningInfo.exitpc + 4

/-- The loader behind `k` calls: the next one is the right one, and the jumps are in place. -/
structure JumpsReady (calls : List SyscallInfo) (places : Places) (loaded : Loader) (npc : Nat)
    (placed : List PCs) (k : Nat) (loader : Loader) : Prop where
  running :
    loader.runningInfo = { (createInsts places loaded placed).runningInfo with nowcallnum := k }
  replay : ∃ armed,
      Replay (loaded.runningInfo.patchedPcs npc) placed (createInsts places loaded placed)
    armed loader ∧ (k = calls.length → armed = true)

section Replaying

variable {calls : List SyscallInfo} {ranges : List MemRangeInfo} {places : Places}
  {takeOver : CodeAddr}
  {mapped : Nat → Prop} {loaded loader : Loader} {npc : Nat} {placed : List PCs} {k : Nat}

/-- The loader that prepares the jumps is ready for the takeovers. -/
theorem Jumpable.prepared (h : Jumpable calls ranges places loaded npc placed) :
    Prepared ranges (loaded.runningInfo.patchedPcs npc) placed places
      (createInsts places loaded placed) :=
  prepared_of_findMidPoints h.reads.indexed h.layout h.jumps h.takeOverAddr h.a0 h.placed

/-- Every byte that is overwritten belongs to the jumps. -/
theorem Jumpable.patched (h : Jumpable calls ranges places loaded npc placed) {b : Nat}
    (hb : Overwritten calls loaded placed k b) :
    Patched (loaded.runningInfo.patchedPcs npc) placed b := by
  have hReady := h.prepared
  rcases hb with (⟨p, hp, hLow, hHigh⟩ | ⟨p, hp, hLow, hHigh⟩ | ⟨p, hp, hLow, hHigh⟩) |
    ⟨-, hLow, hHigh⟩
  · exact Or.inr ⟨p, List.mem_of_mem_drop hp, hLow, by rw [freemem]; omega⟩
  · exact Or.inl ⟨p.pc, hReady.ok.slot p (List.dropLast_subset _ hp), hLow, hHigh⟩
  · exact Or.inr ⟨p, List.dropLast_subset _ hp, by omega, by rw [freemem]; omega⟩
  · obtain ⟨e, he, hePc, -⟩ := hReady.exit
    exact Or.inl ⟨loaded.runningInfo.exitpc, hePc ▸ hReady.ok.slot e he, hLow, hHigh⟩

/-- The output of a recorded call, if it is written at all. -/
theorem writable_store {call : SyscallInfo} (hWritable : call.data ≠ [] → call.bufaddr ≠ 0)
    (m : Memory) :
    (if call.data ≠ [] ∧ call.bufaddr ≠ 0 then store m call.bufaddr call.data else m) =
      store m call.bufaddr call.data := by
  split
  · rfl
  · next hNone =>
      have hEmpty : call.data = [] := by
        by_contra hSome
        exact hNone ⟨hSome, hWritable hSome⟩
      rw [hEmpty, store_nil]

/-- A takeover away from the jumps: the output of the call. -/
theorem ReplaysCall.spared {call : SyscallInfo} {entry : JmpRepInfo} {regs : Nat → Nat}
    {before after : Loader}
    (h : ReplaysCall call entry regs before after) (hWritable : call.data ≠ [] → call.bufaddr ≠ 0)
    {b : Nat} (hJal : ¬ (entry.jal_addr ≤ b ∧ b < entry.jal_addr + 4))
    (hExit : after.runningInfo.nowcallnum = after.runningInfo.totalcallnum →
      ¬ (before.runningInfo.exitpc ≤ b ∧ b < before.runningInfo.exitpc + 4)) :
    after.memory b = store before.memory call.bufaddr call.data b := by
  have hMemory := h.memory
  simp only [writable_store hWritable] at hMemory
  rw [hMemory]
  split
  · next hLast =>
      exact ((storeInst_writes _ _).outside b (hExit hLast) _).trans
        ((storeInst_writes _ _).outside b hJal _)
  · exact (storeInst_writes _ _).outside b hJal _

/-- A system call: through the jump, the takeover and the way back. -/
theorem JumpsReady.call (h : Jumpable calls ranges places loaded npc placed)
    (hReady : JumpsReady calls places loaded npc placed k loader) {pc : Nat} {regs : Nat → Nat}
    {effect : CallEffect} (hCall : calls[k]? = some (effect.call pc regs)) (hNum : regs 17 < 2 ^ 32)
    (hWritable : effect.Writable)
    (hOutput : ∀ b, effect.bufaddr ≤ b → b < effect.bufaddr + effect.data.length →
      mapped b ∧ ¬ Patched (loaded.runningInfo.patchedPcs npc) placed b) :
    ∃ after, TakenByJumps places takeOver mapped loader pc regs ((pc + 4) % 2 ^ 64)
        (effect.results regs) after ∧
      JumpsReady calls places loaded npc placed (k + 1) after ∧
      ∀ b, ¬ Overwritten calls loaded placed (k + 1) b →
        after.memory b = effect.write loader.memory b := by
  obtain ⟨armed, hReplay, -⟩ := hReady.replay
  have hDue : callKeyAt loader.runningInfo.callinfo (loader.runningInfo.infoaddr
      (loader.runningInfo.sysidx loader.runningInfo.nowcallnum)) = (effect.call pc regs).key := by
    rw [hReady.running]
    exact h.reads.key_of_call h.fits hCall
  have hMapped : ∀ b, loader.Outputs b → mapped b := by
    intro b hb
    simp only [Loader.Outputs, hDue, SyscallInfo.key] at hb
    obtain ⟨hSome, hLow, hHigh⟩ := hb
    rw [if_neg fun hEmpty => hSome (if_pos hEmpty)] at hLow hHigh
    exact (hOutput b hLow hHigh).1
  have hApart := fun b hLow hHigh => (hOutput b hLow hHigh).2
  have hA7 : Function.update regs 10 takeOver.val 17 = (effect.call pc regs).num :=
    (Function.update_of_ne (by decide) ..).trans (Nat.mod_eq_of_lt hNum).symm
  obtain ⟨after, hAfter, ⟨armed', hReplay', hLast⟩, hReturns, -⟩ :=
    @takeoverSyscall_continues _ _ _ takeOver _ _ _ _ _ _ _ _ h.fits h.reads h.layout h.jumps
      h.takeOverAddr h.a0 h.placed hReplay hReady.running hCall hA7 hApart
  obtain ⟨i, p, after', hi, hp, hInit, hPc, -, hAfter', hReplays⟩ :=
    h.reads.takeover places h.fits h.placed hCall hReady.running hA7
  obtain rfl : after = after' := Option.some.inj (hAfter.symm.trans hAfter')
  have hEnters : EntersLoader places takeOver loader pc := by
    have hState := hReplay.ok h.prepared
    have hSlot : p ∈ (placed.drop 1).dropLast := by
      refine List.mem_of_getElem? (?_ : (placed.drop 1).dropLast[i - 1]? = some p)
      rw [List.getElem?_dropLast, List.length_drop, if_pos (by omega), List.getElem?_drop,
        Nat.add_sub_cancel' (by omega), hp]
    have hPc' : p.pc = pc := hPc
    exact hPc' ▸ (hState.code.calls p hSlot).entersLoader h.prepared.ok hState.code h.takeOverAddr
  have hTotal : after.runningInfo.totalcallnum = calls.length := by
    rw [hReplays.running, hReady.running]
    exact h.reads.totalcallnum
  have hCount : after.runningInfo.nowcallnum = k + 1 := by
    rw [hReplays.running, hReady.running]
  refine ⟨after, ⟨hMapped, ⟨_, hEnters regs, hAfter⟩, fun own hZero => ?_⟩,
    ⟨?_, armed', hReplay', hLast⟩, fun b hb => ?_⟩
  · have hBack := hReturns { own with regs := loadProgramIntRegs after.program_intregs own.regs }
    have hRegs : loadProgramIntRegs after.program_intregs own.regs = effect.results regs :=
      CallEffect.registers hReplays.a0
        (fun x h0 hx => (hReplays.others x h0 hx).trans (Function.update_of_ne hx ..)) hZero
    have hA0 : after.program_intregs 10 = effect.results regs 10 := (congrFun hRegs 10 :)
    rw [hRegs, hA0, Function.update_eq_self] at hBack
    rw [hRegs]
    exact hBack
  · rw [hReplays.running, hReady.running]
  · refine hReplays.spared hWritable (fun hJal => hb (Or.inl (Or.inr (Or.inr ⟨p, ?_, ?_⟩))))
      fun hEnd hExit => ?_
    · refine List.mem_of_getElem? (?_ : placed.dropLast[i]? = some p)
      rw [List.getElem?_dropLast, if_pos (by omega), hp]
    · simp only [jmpInfo] at hJal
      omega
    · rw [hReady.running] at hExit
      exact hb (Or.inr ⟨by omega, hExit⟩)

/-- The loader at the start of a replay. -/
theorem Jumpable.start (h : Jumpable calls ranges places loaded npc placed) :
    JumpsReady calls places loaded npc placed 0 (startProgram (createInsts places loaded placed)) ∧
      ∀ b, ¬ Overwritten calls loaded placed 0 b →
        (startProgram (createInsts places loaded placed)).memory b = loaded.memory b := by
  obtain ⟨⟨armed, hReplay, hArmed⟩, -⟩ :=
    @startProgram_starts _ _ _ ⟨0, by decide⟩ _ _ _ h.reads h.layout h.jumps
    h.takeOverAddr h.a0 h.placed
  have hTotal : (createInsts places loaded placed).runningInfo.totalcallnum = calls.length :=
    h.reads.totalcallnum
  refine ⟨⟨?_, armed, hReplay, fun hEnd => hArmed (List.length_eq_zero_iff.mp hEnd.symm) h.exitpc⟩,
    fun b hb => ?_⟩
  · have hFirst : (createInsts places loaded placed).runningInfo.nowcallnum = 0 := h.first
    have hRunning : (startProgram (createInsts places loaded placed)).runningInfo =
        (createInsts places loaded placed).runningInfo := by
      simp only [startProgram, updateJmpInst]
      split <;> rfl
    rw [hRunning, ← hFirst]
  · have hJump : ¬ JumpBytes placed b := fun hJump => hb (Or.inl hJump)
    have hKeys := findMidPoints_keys (h.reads.indexed.pcs_labels npc) h.placed
    obtain ⟨p, hp, -⟩ := placed_getElem? hKeys
      (show (loaded.runningInfo.pcs npc)[0]? = some { label := 0, pc := npc } from rfl)
    have hLast : 0 + 1 < placed.length := by
      rw [placed_length hKeys, h.reads.pcs_length]
      omega
    have hEntry := createInsts_sysJmpinfos places loaded hp hLast
    have hInit : p ∈ placed.dropLast := by
      refine List.mem_of_getElem? (?_ : placed.dropLast[0]? = some p)
      rw [List.getElem?_dropLast, if_pos (by omega), hp]
    have hBack : ¬ ((jmpInfo 0 p).jal_addr ≤ b ∧ b < (jmpInfo 0 p).jal_addr + 4) := by
      intro hIn
      refine hJump (Or.inr (Or.inr ⟨p, hInit, ?_⟩))
      simp only [jmpInfo] at hIn
      omega
    simp only [startProgram, List.getD_eq_getElem?_getD, hEntry, Option.getD_some, updateJmpInst]
    rw [(storeInst_writes _ _).outside b hBack]
    split
    · next hEmpty =>
        rw [hTotal] at hEmpty
        refine ((storeInst_writes _ _).outside b
          (fun hIn => hb (Or.inr ⟨hEmpty.1.symm, hIn⟩)) _).trans ?_
        exact createInsts_outside places loaded hJump
    · exact createInsts_outside places loaded hJump

/-- When no call is left, the program enters the loader at the exit, and the loader ends. -/
theorem JumpsReady.ends (h : Jumpable calls ranges places loaded npc placed)
    (hReady : JumpsReady calls places loaded npc placed calls.length loader) :
    EntersLoader places takeOver loader loaded.runningInfo.exitpc ∧ ∀ regs,
      takeoverSyscall regs loader = none := by
  obtain ⟨armed, hReplay, hArmed⟩ := hReady.replay
  have hState := hReplay.ok h.prepared
  refine ⟨(hState.exit (hArmed rfl)).entersLoader h.prepared.ok hState.code h.takeOverAddr,
    fun regs => ?_⟩
  have hTotal : loader.runningInfo.totalcallnum = calls.length := by
    rw [hReady.running]
    exact h.reads.totalcallnum
  have hNow : loader.runningInfo.nowcallnum = calls.length := by rw [hReady.running]
  rw [takeoverSyscall]
  exact if_pos (by omega)

end Replaying

end RiscvCkpt

import Mathlib.Logic.Relation
import RiscvCkpt.Restore.Encoders
import RiscvCkpt.Restore.MidPoints
import RiscvCkpt.Restore.TakeoverSyscall

/-! The jumps between the program and the loader at work. The code that
`processJmp` writes stays in place during a whole replay, whatever system calls
it takes over and in whatever order. -/
namespace RiscvCkpt

open ByteCodec ByteMemory MachineInt Rv64

abbrev CodeAddr := { addr : Nat // 2 ∣ addr ∧ addr < 2 ^ 64 }

/-- What the jump code sees: the two variables of the loader, the first of which
holds the address `takeOver`, and the memory of the program. -/
def Loader.bus (places : Places) (takeOver : CodeAddr) (loader : Loader) : Bus where
  code := loader.memory
  word addr :=
    if addr = places.takeOverAddr then takeOver
    else if addr = places.a0 then loader.program_intregs 10
    else wordValue (load loader.memory addr 8)

/-- `StartJump`: the loader puts `tempMemory[0]` into `a0` and jumps there. -/
def startJump (places : Places) (takeOver : CodeAddr) (loader : Loader) (hart : Hart) : Hart :=
  exec (loader.bus places takeOver) { hart with regs := setReg hart.regs 10 loader.tempMemory }
    (.jalr 0 10 0)

/-- From `pc` control gets to the loader, and only `a0` changes. -/
def EntersLoader (places : Places) (takeOver : CodeAddr) (loader : Loader) (pc : Nat) : Prop :=
  ∀ regs, Reaches (loader.bus places takeOver) ⟨pc, regs⟩
    ⟨takeOver, Function.update regs 10 takeOver⟩

/-- `StartJump` gets to `pc` with the program's own registers. -/
def ReturnsTo (places : Places) (takeOver : CodeAddr) (loader : Loader) (pc : Nat) : Prop :=
  ∀ hart, Reaches (loader.bus places takeOver) (startJump places takeOver loader hart)
    ⟨pc % 2 ^ 64, Function.update hart.regs 10 (loader.program_intregs 10)⟩

/-- The instructions that a jump may replace: the recorded calls and the exit. -/
def RunningInfo.patchedPcs (run : RunningInfo) (npc : Nat) : List Nat :=
  ((run.pcs npc).drop 1).map PCs.pc

def Patched (slots : List Nat) (placed : List PCs) (b : Nat) : Prop :=
  (∃ pc ∈ slots, pc ≤ b ∧ b < pc + 4) ∨
    ∃ p ∈ placed, p.midpoint ≤ b ∧ b < p.midpoint + freemem

/-- The places a checkpoint jumps from and to. Two replaced instructions are the
same or do not overlap. -/
structure JumpPlaces (ranges : List MemRangeInfo) (run : RunningInfo) (npc : Nat) : Prop where
  text : ∀ p ∈ run.pcs npc, InText ranges p.pc
  slots : ∀ a ∈ run.patchedPcs npc, ∀ b ∈ run.patchedPcs npc, a = b ∨ a + 4 ≤ b ∨ b + 4 ≤ a

/-- A replay after `processJmp` has left `ready`: in any order, the loader
prepares a return, replaces the exit, or the program and the loader write
elsewhere. The flag tells whether the exit has been replaced. -/
inductive Replay (slots : List Nat) (placed : List PCs) (ready : Loader) :
    Bool → Loader → Prop where
  | start : Replay slots placed ready false ready
  | update {armed : Bool} {state : Loader} {info : JmpRepInfo}
    (prior : Replay slots placed ready armed state)
      (hInfo : info ∈ state.runningInfo.sysJmpinfos) :
      Replay slots placed ready armed (updateJmpInst info state)
  | arm {armed : Bool} {state : Loader} (prior : Replay slots placed ready armed state) :
      Replay slots placed ready true (armExit state)
  | other {armed : Bool} {state state' : Loader} (prior : Replay slots placed ready armed state)
      (hSame : ∀ b, Patched slots placed b → state'.memory b = state.memory b)
      (hExitpc : state'.runningInfo.exitpc = state.runningInfo.exitpc)
      (hExit : state'.runningInfo.exitJmpInst = state.runningInfo.exitJmpInst)
      (hInfos : state'.runningInfo.sysJmpinfos = state.runningInfo.sysJmpinfos) :
      Replay slots placed ready armed state'

/-- A single instruction is a sequence of one. -/
theorem storeInst_eq (m : Memory) (addr inst : Nat) :
    storeInst m addr inst = storeInsts m addr [inst] :=
  rfl

/-- Code survives a write of itself and every write elsewhere. -/
theorem holdsAll_kept {m : Memory} {addr place : Nat} {insts code : List Nat}
    (h : HoldsAll m place code)
    (hApart : (addr = place ∧ insts = code) ∨ addr + 4 * insts.length ≤ place ∨
      place + 4 * code.length ≤ addr) : HoldsAll (storeInsts m addr insts) place code := by
  rcases hApart with ⟨rfl, rfl⟩ | hApart
  · exact holdsAll_storeInsts m addr insts
  · exact h.congr fun b hLow hHigh => storeInsts_outside (by omega)

/-- How the placed pcs lie to each other. -/
structure PlacedOk (ranges : List MemRangeInfo) (slots : List Nat) (placed : List PCs) : Prop where
  layout : TextLayout ranges
  midpoint : ∀ p ∈ placed, IsMidPoint ranges p.pc p.midpoint
  text : ∀ p ∈ placed, InText ranges p.pc
  slot : ∀ p ∈ placed.drop 1, p.pc ∈ slots
  slots_text : ∀ pc ∈ slots, InText ranges pc
  slots_apart : ∀ a ∈ slots, ∀ b ∈ slots, a = b ∨ a + 4 ≤ b ∨ b + 4 ≤ a

def enterCode (places : Places) : List Nat := loadA0 places.takeOverAddr ++ [createJALR 10]

@[simp] theorem enterCode_length (places : Places) : (enterCode places).length = 4 := rfl

@[simp] theorem loadA0_length (memaddr : Nat) : (loadA0 memaddr).length = 3 := rfl

/-- Every write of the loader to the jumps. -/
inductive Patch (places : Places) (placed : List PCs) : Memory → Memory → Prop where
  | enter {m : Memory} {p : PCs} (h : p ∈ placed.drop 1) :
      Patch places placed m (storeInsts m p.midpoint (enterCode places))
  | jump {m : Memory} {p : PCs} (h : p ∈ placed.drop 1) :
      Patch places placed m (storeInst m p.pc (createJAL p.pc p.midpoint))
  | leave {m : Memory} {p : PCs} (h : p ∈ placed.dropLast) :
      Patch places placed m (storeInsts m (p.midpoint + 32) (loadA0 places.a0))
  | back {m : Memory} {p : PCs} (inst : Nat) (h : p ∈ placed.dropLast) :
      Patch places placed m (storeInst m (p.midpoint + 32 + 12) inst)

/-- A jump to a midpoint of `pc` stands at `pc`. -/
def JumpsAway (placed : List PCs) (m : Memory) (pc : Nat) : Prop :=
  ∃ q ∈ placed.drop 1, q.pc = pc ∧ HoldsAll m pc [createJAL pc q.midpoint]

/-- The code of the jumps is in place. -/
structure Trampolines (places : Places) (placed : List PCs) (m : Memory) : Prop where
  enter : ∀ p ∈ placed.drop 1, HoldsAll m p.midpoint (enterCode places)
  leave : ∀ p ∈ placed.dropLast, HoldsAll m (p.midpoint + 32) (loadA0 places.a0)
  calls : ∀ p ∈ (placed.drop 1).dropLast, JumpsAway placed m p.pc

section Patches

variable {ranges : List MemRangeInfo} {slots : List Nat} {placed : List PCs} {places : Places}
  {m m' : Memory} {p q : PCs} {pc : Nat}

/-- The areas of two midpoints are the same or lie apart. -/
theorem PlacedOk.areas (h : PlacedOk ranges slots placed) (hp : p ∈ placed) (hq : q ∈ placed) :
    p.midpoint = q.midpoint ∨ p.midpoint + 64 ≤ q.midpoint ∨ q.midpoint + 64 ≤ p.midpoint :=
  (h.midpoint p hp).eq_or_apart (h.midpoint q hq) h.layout

/-- A replaced instruction lies outside of every midpoint. -/
theorem PlacedOk.slot_area (h : PlacedOk ranges slots placed) (hPc : pc ∈ slots) (hq : q ∈ placed) :
    pc + 4 ≤ q.midpoint ∨ q.midpoint + 64 ≤ pc :=
  (h.midpoint q hq).apart_text h.layout (h.slots_text pc hPc)

/-- No write damages the way into the loader. -/
theorem Patch.enter_kept (hPatch : Patch places placed m m')
    (hOk : PlacedOk ranges slots placed) (hq : q ∈ placed.drop 1)
    (h : HoldsAll m q.midpoint (enterCode places)) : HoldsAll m' q.midpoint (enterCode places) := by
  have hqMem := List.mem_of_mem_drop hq
  cases hPatch with
  | enter hp =>
      have hApart := hOk.areas (List.mem_of_mem_drop hp) hqMem
      refine holdsAll_kept h (hApart.imp (fun hSame => ⟨hSame, rfl⟩) fun hApart => ?_)
      rw [enterCode_length]
      omega
  | jump hp =>
      have hApart := hOk.slot_area (hOk.slot _ hp) hqMem
      rw [storeInst_eq]
      exact holdsAll_kept h (Or.inr (by simp only [enterCode_length, List.length_singleton]; omega))
  | leave hp =>
      have hApart := hOk.areas (List.dropLast_subset _ hp) hqMem
      exact holdsAll_kept h (Or.inr (by simp only [enterCode_length, loadA0_length]; omega))
  | back inst hp =>
      have hApart := hOk.areas (List.dropLast_subset _ hp) hqMem
      rw [storeInst_eq]
      exact holdsAll_kept h (Or.inr (by simp only [enterCode_length, List.length_singleton]; omega))

/-- No write damages the way back up to its final jump. -/
theorem Patch.leave_kept (hPatch : Patch places placed m m')
    (hOk : PlacedOk ranges slots placed) (hq : q ∈ placed.dropLast)
    (h : HoldsAll m (q.midpoint + 32) (loadA0 places.a0)) :
    HoldsAll m' (q.midpoint + 32) (loadA0 places.a0) := by
  have hqMem := List.dropLast_subset _ hq
  cases hPatch with
  | enter hp =>
      have hApart := hOk.areas (List.mem_of_mem_drop hp) hqMem
      exact holdsAll_kept h (Or.inr (by simp only [enterCode_length, loadA0_length]; omega))
  | jump hp =>
      have hApart := hOk.slot_area (hOk.slot _ hp) hqMem
      rw [storeInst_eq]
      exact holdsAll_kept h (Or.inr (by simp only [loadA0_length, List.length_singleton]; omega))
  | leave hp =>
      have hApart := hOk.areas (List.dropLast_subset _ hp) hqMem
      refine holdsAll_kept h (hApart.imp (fun hSame => ⟨by rw [hSame], rfl⟩) fun hApart => ?_)
      rw [loadA0_length]
      omega
  | back inst hp =>
      have hApart := hOk.areas (List.dropLast_subset _ hp) hqMem
      rw [storeInst_eq]
      exact holdsAll_kept h (Or.inr (by simp only [loadA0_length, List.length_singleton]; omega))

/-- The jump that is stored at a pc leads to its midpoint. -/
theorem jumpsAway_storeInst (m : Memory) (hp : p ∈ placed.drop 1) :
    JumpsAway placed (storeInst m p.pc (createJAL p.pc p.midpoint)) p.pc :=
  ⟨p, hp, rfl, holdsAll_storeInsts m p.pc [createJAL p.pc p.midpoint]⟩

/-- A replaced instruction stays a jump, although its midpoint may change. -/
theorem Patch.jumpsAway_kept (hPatch : Patch places placed m m')
    (hOk : PlacedOk ranges slots placed) (hPc : pc ∈ slots) (h : JumpsAway placed m pc) :
    JumpsAway placed m' pc := by
  obtain ⟨q, hq, hqPc, hHolds⟩ := h
  cases hPatch with
  | enter hp =>
      have hApart := hOk.slot_area hPc (List.mem_of_mem_drop hp)
      exact ⟨q, hq, hqPc, holdsAll_kept hHolds
        (Or.inr (by simp only [enterCode_length, List.length_singleton]; omega))⟩
  | @jump p hp =>
      rcases hOk.slots_apart _ (hOk.slot p hp) pc hPc with rfl | hApart
      · exact jumpsAway_storeInst m hp
      · rw [storeInst_eq]
        exact ⟨q, hq, hqPc, holdsAll_kept hHolds
          (Or.inr (by simp only [List.length_singleton]; omega))⟩
  | leave hp =>
      have hApart := hOk.slot_area hPc (List.dropLast_subset _ hp)
      exact ⟨q, hq, hqPc, holdsAll_kept hHolds
        (Or.inr (by simp only [loadA0_length, List.length_singleton]; omega))⟩
  | back inst hp =>
      have hApart := hOk.slot_area hPc (List.dropLast_subset _ hp)
      rw [storeInst_eq]
      exact ⟨q, hq, hqPc,
        holdsAll_kept hHolds (Or.inr (by simp only [List.length_singleton]; omega))⟩

/-- A write of the loader leaves the code of the jumps in place. -/
theorem Patch.trampolines (hPatch : Patch places placed m m')
    (hOk : PlacedOk ranges slots placed) (h : Trampolines places placed m) :
    Trampolines places placed m' where
  enter p hp := hPatch.enter_kept hOk hp (h.enter p hp)
  leave p hp := hPatch.leave_kept hOk hp (h.leave p hp)
  calls p hp := hPatch.jumpsAway_kept hOk (hOk.slot p (List.dropLast_subset _ hp)) (h.calls p hp)

/-- The loader writes only to bytes that belong to the jumps. -/
theorem Patch.frame (hPatch : Patch places placed m m')
    (hOk : PlacedOk ranges slots placed) {b : Nat}
    (hb : ¬ Patched slots placed b) : m' b = m b := by
  have hArea : ∀ p ∈ placed, b < p.midpoint ∨ p.midpoint + 64 ≤ b := by
    intro p hp
    by_contra hIn
    exact hb (Or.inr ⟨p, hp, by omega, by simp only [freemem]; omega⟩)
  cases hPatch with
  | enter hp =>
      have hOut := hArea _ (List.mem_of_mem_drop hp)
      exact storeInsts_outside (by rw [enterCode_length]; omega)
  | @jump p hp =>
      have hOut : b < p.pc ∨ p.pc + 4 ≤ b := by
        by_contra hIn
        exact hb (Or.inl ⟨p.pc, hOk.slot p hp, by omega, by omega⟩)
      rw [storeInst_eq]
      exact storeInsts_outside hOut
  | leave hp =>
      have hOut := hArea _ (List.dropLast_subset _ hp)
      exact storeInsts_outside (by rw [loadA0_length]; omega)
  | back inst hp =>
      have hOut := hArea _ (List.dropLast_subset _ hp)
      rw [storeInst_eq]
      exact storeInsts_outside (by rw [List.length_singleton]; omega)

/-- A jump stays in place as long as its bytes do. -/
theorem JumpsAway.congr (h : JumpsAway placed m pc) (hPc : pc ∈ slots)
    (hSame : ∀ b, Patched slots placed b → m' b = m b) : JumpsAway placed m' pc := by
  obtain ⟨q, hq, hqPc, hHolds⟩ := h
  exact ⟨q, hq, hqPc, hHolds.congr fun b hLow hHigh => hSame b (Or.inl ⟨pc, hPc, hLow, hHigh⟩)⟩

/-- Writes elsewhere do not matter. -/
theorem Trampolines.congr (h : Trampolines places placed m) (hOk : PlacedOk ranges slots placed)
    (hSame : ∀ b, Patched slots placed b → m' b = m b) : Trampolines places placed m' := by
  have hArea : ∀ p ∈ placed, ∀ b, p.midpoint ≤ b → b < p.midpoint + 64 → m' b = m b :=
    fun p hp b hLow hHigh => hSame b (Or.inr ⟨p, hp, hLow, hHigh⟩)
  refine ⟨fun p hp => (h.enter p hp).congr fun b hLow hHigh => ?_,
    fun p hp => (h.leave p hp).congr fun b hLow hHigh => ?_,
    fun p hp => (h.calls p hp).congr (hOk.slot p (List.dropLast_subset _ hp)) hSame⟩
  · rw [enterCode_length] at hHigh
    exact hArea p (List.mem_of_mem_drop hp) b hLow (by omega)
  · rw [loadA0_length] at hHigh
    exact hArea p (List.dropLast_subset _ hp) b (by omega) (by omega)

/-- A sequence of writes of the loader. -/
abbrev Patches (places : Places) (placed : List PCs) : Memory → Memory → Prop :=
  Relation.ReflTransGen (Patch places placed)

/-- What every single write keeps, a sequence of them keeps. -/
theorem Patches.kept {P : Memory → Prop} (h : Patches places placed m m')
    (hStep : ∀ {m m'}, Patch places placed m m' → P m → P m') (hStart : P m) : P m' := by
  induction h with
  | refl => exact hStart
  | tail _ last ih => exact hStep last ih

/-- `createInsts_jmp2loader` writes the way into the loader for each of its pcs. -/
theorem createInstsJmp2loader_spec (hOk : PlacedOk ranges slots placed) {ps : List PCs}
    (hPs : ∀ p ∈ ps, p ∈ placed.drop 1) :
    Patches places placed m (createInstsJmp2loader places.takeOverAddr m ps).1 ∧
      (∀ p ∈ ps, HoldsAll (createInstsJmp2loader places.takeOverAddr m ps).1 p.midpoint
        (enterCode places)) ∧
      ∀ p ∈ ps.dropLast,
        JumpsAway placed (createInstsJmp2loader places.takeOverAddr m ps).1 p.pc := by
  induction ps generalizing m with
  | nil => exact ⟨.refl, by simp, by simp⟩
  | cons p rest ih =>
      have hp := hPs p (by simp)
      have hEnter : Patch places placed m (storeInsts m p.midpoint (enterCode places)) := .enter hp
      cases rest with
      | nil =>
          refine ⟨.single hEnter, fun q hq => ?_, by simp⟩
          obtain rfl := List.mem_singleton.mp hq
          exact holdsAll_storeInsts m q.midpoint (enterCode places)
      | cons next rest =>
          obtain ⟨hPatches, hCode, hJumps⟩ := @ih (storeInst
            (storeInsts m p.midpoint (enterCode places)) p.pc (createJAL p.pc p.midpoint))
            fun q hq => hPs q (by simp [hq])
          have hJump : Patch places placed (storeInsts m p.midpoint (enterCode places))
            (storeInst _ p.pc (createJAL p.pc p.midpoint)) := .jump hp
          have hUnfold : createInstsJmp2loader places.takeOverAddr m (p :: next :: rest) =
            createInstsJmp2loader places.takeOverAddr (storeInst
              (storeInsts m p.midpoint (enterCode places)) p.pc (createJAL p.pc p.midpoint))
              (next :: rest) := rfl
          rw [hUnfold]
          refine ⟨.head hEnter (.head hJump hPatches), fun q hq => ?_, fun q hq => ?_⟩
          · rcases List.mem_cons.mp hq with rfl | hq
            · -- written first, and then kept by all later writes
              exact hPatches.kept (fun hPatch => hPatch.enter_kept hOk hp)
                (hJump.enter_kept hOk hp (holdsAll_storeInsts m _ _))
            · exact hCode q hq
          · rcases List.mem_cons.mp hq with rfl | hq
            · exact hPatches.kept (fun hPatch => hPatch.jumpsAway_kept hOk (hOk.slot _ hp))
                (jumpsAway_storeInst _ hp)
            · exact hJumps q hq

/-- The jump that is kept for the exit belongs to the last pc. -/
theorem createInstsJmp2loader_exit {memaddr : Nat} {ps : List PCs} (h : ps.getLast? = some p) :
    (createInstsJmp2loader memaddr m ps).2 = createJAL p.pc p.midpoint := by
  induction ps generalizing m with
  | nil => simp at h
  | cons first rest ih =>
      cases rest with
      | nil =>
          obtain rfl := Option.some.inj h
          rfl
      | cons next rest => exact ih (by simpa using h)

/-- `createInsts_jmp2prog` writes the way back for each of its pcs. -/
theorem createInstsJmp2prog_spec (hOk : PlacedOk ranges slots placed) {ps : List PCs}
    (hPs : ∀ p ∈ ps, p ∈ placed.dropLast) :
    Patches places placed m (createInstsJmp2prog places.a0 m ps).1 ∧
      ∀ p ∈ ps, HoldsAll (createInstsJmp2prog places.a0 m ps).1 (p.midpoint + 32)
        (loadA0 places.a0) := by
  simp only [createInstsJmp2prog]
  induction ps generalizing m with
  | nil => exact ⟨.refl, by simp⟩
  | cons p rest ih =>
      have hp := hPs p (by simp)
      obtain ⟨hPatches, hCode⟩ := @ih (storeInsts m (p.midpoint + 32) (loadA0 places.a0))
        fun q hq => hPs q (by simp [hq])
      rw [List.foldl_cons]
      refine ⟨.head (.leave hp) hPatches, fun q hq => ?_⟩
      rcases List.mem_cons.mp hq with rfl | hq
      · exact hPatches.kept (fun hPatch => hPatch.leave_kept hOk hp) (holdsAll_storeInsts m _ _)
      · exact hCode q hq

/-- After `processJmp` all jumps are in place. -/
theorem createInsts_trampolines {loader : Loader} (hOk : PlacedOk ranges slots placed)
    (hTakeOver : places.takeOverAddr < 2 ^ 31) (hA0 : places.a0 < 2 ^ 31) :
    Patches places placed loader.memory (createInsts places loader placed).memory ∧
      Trampolines places placed (createInsts places loader placed).memory := by
  simp only [createInsts, Nat.mod_eq_of_lt (show places.takeOverAddr < 4294967296 by omega),
    Nat.mod_eq_of_lt (show places.a0 < 4294967296 by omega)]
  obtain ⟨hToLoader, hEnter, hCalls⟩ := @createInstsJmp2loader_spec ranges slots placed places
    loader.memory hOk (placed.drop 1) fun p hp => hp
  obtain ⟨hToProg, hLeave⟩ := @createInstsJmp2prog_spec ranges slots placed places
    (createInstsJmp2loader places.takeOverAddr loader.memory (placed.drop 1)).1 hOk placed.dropLast
    fun p hp => hp
  refine ⟨hToLoader.trans hToProg, ⟨fun p hp => ?_, hLeave, fun p hp => ?_⟩⟩
  · exact hToProg.kept (fun hPatch => hPatch.enter_kept hOk hp) (hEnter p hp)
  · exact hToProg.kept (fun hPatch => hPatch.jumpsAway_kept hOk
      (hOk.slot p (List.dropLast_subset _ hp))) (hCalls p hp)

end Patches

section Transfers

variable {ranges : List MemRangeInfo} {slots : List Nat} {placed : List PCs} {places : Places}
  {takeOver : CodeAddr} {loader ready state : Loader} {p : PCs} {pc : Nat} {armed : Bool}

/-- A jump to a midpoint ends in the loader. -/
theorem JumpsAway.entersLoader (h : JumpsAway placed loader.memory pc)
    (hOk : PlacedOk ranges slots placed) (hCode : Trampolines places placed loader.memory)
    (hPlace : places.takeOverAddr < 2 ^ 31) : EntersLoader places takeOver loader pc := by
  obtain ⟨q, hq, rfl, hJump, -⟩ := h
  have hqMem := List.mem_of_mem_drop hq
  obtain ⟨hLui, hAddiw, hLd, hJalr, -⟩ := hCode.enter q hq
  obtain ⟨hMidEven, hMidLt⟩ := (hOk.midpoint q hqMem).bounds hOk.layout
  obtain ⟨hNear, hFar⟩ := (hOk.midpoint q hqMem).reach
  obtain ⟨hPcEven, -⟩ := hOk.text q hqMem
  intro regs
  have hWord : (loader.bus places takeOver).word places.takeOverAddr = takeOver := if_pos rfl
  refine reaches_createJAL hJump (by omega) (by omega) (by omega) ?_
  rw [Nat.mod_eq_of_lt (by omega)]
  refine reaches_loadA0 ⟨hLui, hAddiw, hLd, trivial⟩ (by omega) hPlace ?_
  rw [hWord]
  have hA0 : Function.update regs 10 takeOver.val 10 = takeOver.val := Function.update_self ..
  refine reaches_createJALR hJalr (by rw [hA0]; exact takeOver.2.1)
    (by rw [hA0]; exact takeOver.2.2) ?_
  rw [hA0]
  exact .refl _

/-- With its final jump in place, the way back ends where that jump goes. -/
theorem returnsTo_of_code {ret : Nat} (hOk : PlacedOk ranges slots placed) (hp : p ∈ placed)
    (hLeave : HoldsAll loader.memory (p.midpoint + 32) (loadA0 places.a0))
    (hBack : HoldsAll loader.memory (p.midpoint + 32 + 12) [createJAL (p.midpoint + 32 + 12) ret])
    (hTemp : loader.tempMemory = p.midpoint + 32) (hRet : ret = p.pc ∨ ret = p.pc + 4)
    (hPlace : places.a0 < 2 ^ 31) : ReturnsTo places takeOver loader ret := by
  obtain ⟨hMidEven, hMidLt⟩ := (hOk.midpoint p hp).bounds hOk.layout
  obtain ⟨hNear, hFar⟩ := (hOk.midpoint p hp).reach
  obtain ⟨hPcEven, -⟩ := hOk.text p hp
  intro hart
  have hWord : (loader.bus places takeOver).word places.a0 = loader.program_intregs 10 :=
    (if_neg places.distinct.symm).trans (if_pos rfl)
  have hStart : startJump places takeOver loader hart =
      ⟨p.midpoint + 32, Function.update hart.regs 10 (p.midpoint + 32)⟩ := by
    have hTarget : uint64 ((p.midpoint + 32 : Nat) + 0) / 2 * 2 = p.midpoint + 32 := by
      simp only [uint64]
      omega
    simp only [startJump, exec, hTemp, setReg_a0, Function.update_self, hTarget]
    rfl
  rw [hStart]
  refine reaches_loadA0 hLeave (by omega) hPlace ?_
  rw [hWord, Function.update_idem]
  exact reaches_createJAL hBack.1 (by omega) (by omega) (by omega) (.refl _)

/-- What `processJmp` leaves for the takeovers. -/
structure Prepared (ranges : List MemRangeInfo) (slots : List Nat) (placed : List PCs)
    (places : Places) (ready : Loader) : Prop where
  ok : PlacedOk ranges slots placed
  code : Trampolines places placed ready.memory
  infos : ready.runningInfo.sysJmpinfos = placed.dropLast.mapIdx jmpInfo
  exit : ∃ e ∈ placed.drop 1, e.pc = ready.runningInfo.exitpc ∧
    ready.runningInfo.exitJmpInst = createJAL e.pc e.midpoint

/-- The jumps are in place in a state of a replay. -/
structure ReplayOk (placed : List PCs) (places : Places) (ready : Loader) (armed : Bool)
    (state : Loader) : Prop where
  code : Trampolines places placed state.memory
  infos : state.runningInfo.sysJmpinfos = ready.runningInfo.sysJmpinfos
  exitpc : state.runningInfo.exitpc = ready.runningInfo.exitpc
  exitJmpInst : state.runningInfo.exitJmpInst = ready.runningInfo.exitJmpInst
  exit : armed = true → JumpsAway placed state.memory ready.runningInfo.exitpc

/-- Preparing a return is one of the writes of the loader. -/
theorem updateJmpInst_patch {info : JmpRepInfo} (hReady : Prepared ranges slots placed places ready)
    (hState : state.runningInfo.sysJmpinfos = ready.runningInfo.sysJmpinfos)
    (hInfo : info ∈ state.runningInfo.sysJmpinfos) :
    Patch places placed state.memory (updateJmpInst info state).memory := by
  rw [hState, hReady.infos] at hInfo
  obtain ⟨i, hi, rfl⟩ := List.mem_mapIdx.mp hInfo
  exact .back _ (List.getElem_mem hi)

/-- Replacing the exit is one of the writes of the loader. -/
theorem armExit_patch (hReady : Prepared ranges slots placed places ready)
    (hExitpc : state.runningInfo.exitpc = ready.runningInfo.exitpc)
    (hExit : state.runningInfo.exitJmpInst = ready.runningInfo.exitJmpInst) :
    Patch places placed state.memory (armExit state).memory ∧
      JumpsAway placed (armExit state).memory ready.runningInfo.exitpc := by
  obtain ⟨e, he, hePc, heInst⟩ := hReady.exit
  simp only [armExit, hExitpc, hExit, heInst, ← hePc]
  exact ⟨.jump he, jumpsAway_storeInst _ he⟩

/-- In every state of every replay the jumps are in place. -/
theorem Replay.ok (hReplay : Replay slots placed ready armed state)
    (hReady : Prepared ranges slots placed places ready) :
    ReplayOk placed places ready armed state := by
  have hSlot : ready.runningInfo.exitpc ∈ slots := by
    obtain ⟨e, he, hePc, -⟩ := hReady.exit
    exact hePc ▸ hReady.ok.slot e he
  induction hReplay with
  | start => exact ⟨hReady.code, rfl, rfl, rfl, by simp⟩
  | update prior hInfo ih =>
      have hPatch := updateJmpInst_patch hReady ih.infos hInfo
      exact ⟨hPatch.trampolines hReady.ok ih.code, ih.infos, ih.exitpc, ih.exitJmpInst,
        fun hArmed => hPatch.jumpsAway_kept hReady.ok hSlot (ih.exit hArmed)⟩
  | arm prior ih =>
      obtain ⟨hPatch, hJump⟩ := armExit_patch hReady ih.exitpc ih.exitJmpInst
      exact ⟨hPatch.trampolines hReady.ok ih.code, ih.infos, ih.exitpc, ih.exitJmpInst,
        fun _ => hJump⟩
  | other prior hSame hExitpc hExit hInfos ih =>
      exact ⟨ih.code.congr hReady.ok hSame, hInfos.trans ih.infos, hExitpc.trans ih.exitpc,
        hExit.trans ih.exitJmpInst, fun hArmed => (ih.exit hArmed).congr hSlot hSame⟩

/-- In every state, preparing the `i`-th return makes `StartJump` arrive there,
also if the exit is replaced in between. -/
theorem ReplayOk.returns {i : Nat} (h : ReplayOk placed places ready armed state)
    (hReady : Prepared ranges slots placed places ready) (hp : placed[i]? = some p)
    (hLast : i + 1 < placed.length) (hPlace : places.a0 < 2 ^ 31) :
    ReturnsTo places takeOver (updateJmpInst (jmpInfo i p) state) (retAddr i p) ∧
      ReturnsTo places takeOver (armExit (updateJmpInst (jmpInfo i p) state)) (retAddr i p) := by
  have hpInit : p ∈ placed.dropLast := by
    refine List.mem_of_getElem? (?_ : placed.dropLast[i]? = some p)
    rw [List.getElem?_dropLast, if_pos (by omega), hp]
  have hpMem := List.dropLast_subset _ hpInit
  have hRet : retAddr i p = p.pc ∨ retAddr i p = p.pc + 4 := by
    simp only [retAddr]
    split <;> simp
  have hUpdate : Patch places placed state.memory (updateJmpInst (jmpInfo i p) state).memory :=
    .back _ hpInit
  have hLeave := hUpdate.leave_kept hReady.ok hpInit (h.code.leave p hpInit)
  have hBack : HoldsAll (updateJmpInst (jmpInfo i p) state).memory (p.midpoint + 32 + 12)
      [createJAL (p.midpoint + 32 + 12) (retAddr i p)] := holdsAll_storeInsts _ _ [_]
  obtain ⟨hArm, -⟩ := @armExit_patch _ _ _ _ _ (updateJmpInst (jmpInfo i p) state) hReady
    h.exitpc h.exitJmpInst
  have hBackArmed : HoldsAll (armExit (updateJmpInst (jmpInfo i p) state)).memory
      (p.midpoint + 32 + 12) [createJAL (p.midpoint + 32 + 12) (retAddr i p)] := by
    obtain ⟨e, he, hePc, -⟩ := hReady.exit
    have hApart := hReady.ok.slot_area (hReady.ok.slot e he) hpMem
    rw [hePc, ← h.exitpc] at hApart
    exact @holdsAll_kept _ state.runningInfo.exitpc _ [state.runningInfo.exitJmpInst] _ hBack
      (Or.inr (by simp only [List.length_singleton]; omega))
  exact ⟨returnsTo_of_code hReady.ok hpMem hLeave hBack rfl hRet hPlace,
    returnsTo_of_code hReady.ok hpMem (hArm.leave_kept hReady.ok hpInit hLeave) hBackArmed rfl hRet
      hPlace⟩

end Transfers

section Checkpoint

variable {ranges : List MemRangeInfo} {placed : List PCs} {places : Places} {loaded : Loader}
  {npc : Nat} {p : PCs}

theorem exists_mem_of_keys {xs ys : List PCs} (h : xs.map PCs.key = ys.map PCs.key) (hp : p ∈ xs) :
    ∃ q ∈ ys, q.pc = p.pc := by
  have hMem : p.key ∈ ys.map PCs.key := h ▸ List.mem_map_of_mem hp
  obtain ⟨q, hq, hKey⟩ := List.mem_map.mp hMem
  exact ⟨q, hq, congrArg Prod.snd hKey⟩

/-- Placing keeps the pc at every index. -/
theorem placed_getElem? (hKeys : placed.map PCs.key = (loaded.runningInfo.pcs npc).map PCs.key)
    {i : Nat} (hp : (loaded.runningInfo.pcs npc)[i]? = some p) :
    ∃ q, placed[i]? = some q ∧ q.pc = p.pc := by
  have hAt := congrArg (fun keys => keys[i]?) hKeys
  simp only [List.getElem?_map, hp, Option.map_some, Option.map_eq_some_iff] at hAt
  obtain ⟨q, hq, hKey⟩ := hAt
  exact ⟨q, hq, congrArg Prod.snd hKey⟩

theorem placed_length (hKeys : placed.map PCs.key = (loaded.runningInfo.pcs npc).map PCs.key) :
    placed.length = (loaded.runningInfo.pcs npc).length := by
  rw [← List.length_map PCs.key, hKeys, List.length_map]

/-- The midpoints that `findMidPoints` gives to a checkpoint lie as the jumps need them. -/
theorem placedOk_of_findMidPoints (hIndexed : loaded.runningInfo.Indexed)
    (hLayout : TextLayout ranges) (hJumps : JumpPlaces ranges loaded.runningInfo npc)
    (hPlaced : findMidPoints (getRangeInfo ranges) (loaded.runningInfo.pcs npc) = some placed) :
    PlacedOk ranges (loaded.runningInfo.patchedPcs npc) placed := by
  have hKeys := findMidPoints_keys (hIndexed.pcs_labels npc) hPlaced
  refine ⟨hLayout, findMidPoints_spec hLayout hJumps.text hPlaced, ?_, ?_, ?_, hJumps.slots⟩
  · intro q hq
    obtain ⟨q', hq', hPc⟩ := exists_mem_of_keys hKeys hq
    exact hPc ▸ hJumps.text q' hq'
  · intro q hq
    have hKeysDrop : (placed.drop 1).map PCs.key =
        ((loaded.runningInfo.pcs npc).drop 1).map PCs.key := by
      rw [List.map_drop, hKeys, ← List.map_drop]
    obtain ⟨q', hq', hPc⟩ := exists_mem_of_keys hKeysDrop hq
    exact List.mem_map.mpr ⟨q', hq', hPc⟩
  · intro pc hPc
    obtain ⟨q, hq, rfl⟩ := List.mem_map.mp hPc
    exact hJumps.text q (List.mem_of_mem_drop hq)

/-- `processJmp` prepares every checkpoint whose pcs get their midpoints. -/
theorem prepared_of_findMidPoints (hIndexed : loaded.runningInfo.Indexed)
    (hLayout : TextLayout ranges) (hJumps : JumpPlaces ranges loaded.runningInfo npc)
    (hTakeOver : places.takeOverAddr < 2 ^ 31) (hA0 : places.a0 < 2 ^ 31)
    (hPlaced : findMidPoints (getRangeInfo ranges) (loaded.runningInfo.pcs npc) = some placed) :
    Prepared ranges (loaded.runningInfo.patchedPcs npc) placed places
      (createInsts places loaded placed) := by
  have hOk := placedOk_of_findMidPoints hIndexed hLayout hJumps hPlaced
  have hKeys := findMidPoints_keys (hIndexed.pcs_labels npc) hPlaced
  refine ⟨hOk, (createInsts_trampolines hOk hTakeOver hA0).2, rfl, ?_⟩
  have hLast := loaded.runningInfo.pcs_getLast? npc
  rw [List.getLast?_eq_getElem?] at hLast
  obtain ⟨e, he, hePc⟩ := placed_getElem? hKeys hLast
  rw [← placed_length hKeys, ← List.getLast?_eq_getElem?] at he
  have hTwo : ¬ placed.length ≤ 1 := by
    rw [placed_length hKeys]
    simp [RunningInfo.pcs]
  have heDrop : (placed.drop 1).getLast? = some e := by
    rw [List.getLast?_drop, if_neg hTwo, he]
  exact ⟨e, List.mem_of_getLast? heDrop, hePc, createInstsJmp2loader_exit heDrop⟩

end Checkpoint

/-- The jumps of a checkpoint transfer control correctly in every state of every
replay: from each replaced instruction into the loader, and from the loader
behind each call. Only the replaced instructions and the midpoint areas, which
lie at the ends of gaps of the text, are written. -/
theorem processJmp_transfers {ranges : List MemRangeInfo} {places : Places} (takeOver : CodeAddr)
    {loaded : Loader} {npc : Nat} {placed : List PCs} (hIndexed : loaded.runningInfo.Indexed)
    (hLayout : TextLayout ranges) (hJumps : JumpPlaces ranges loaded.runningInfo npc)
    (hTakeOver : places.takeOverAddr < 2 ^ 31) (hA0 : places.a0 < 2 ^ 31)
    (hPlaced : findMidPoints (getRangeInfo ranges) (loaded.runningInfo.pcs npc) = some placed) :
    ∃ ready, processJmp (getRangeInfo ranges) places npc loaded = some ready ∧
      let slots := loaded.runningInfo.patchedPcs npc
      (∀ p ∈ placed, ∃ gap, IsGap ranges gap ∧
        (p.midpoint = gap.addr ∨ p.midpoint + freemem = gap.stop)) ∧
      (∀ b, ¬ Patched slots placed b → ready.memory b = loaded.memory b) ∧
      ∀ armed state, Replay slots placed ready armed state →
        (∀ i p, (loaded.runningInfo.pcs npc)[i]? = some p → i ≠ 0 →
          i + 1 < (loaded.runningInfo.pcs npc).length → EntersLoader places takeOver state p.pc) ∧
        (armed = true → EntersLoader places takeOver state loaded.runningInfo.exitpc) ∧
        (∀ i p, (loaded.runningInfo.pcs npc)[i]? = some p →
          i + 1 < (loaded.runningInfo.pcs npc).length →
          ∃ info, state.runningInfo.sysJmpinfos[i]? = some info ∧
            ReturnsTo places takeOver (updateJmpInst info state) (retAddr i p) ∧
            ReturnsTo places takeOver (armExit (updateJmpInst info state)) (retAddr i p) ∧
            ∀ b, ¬ Patched slots placed b → (updateJmpInst info state).memory b = state.memory b) ∧
        ∀ b, ¬ Patched slots placed b → (armExit state).memory b = state.memory b := by
  have hReady := prepared_of_findMidPoints hIndexed hLayout hJumps hTakeOver hA0 hPlaced
  have hKeys := findMidPoints_keys (hIndexed.pcs_labels npc) hPlaced
  have hLength := placed_length hKeys
  refine ⟨createInsts places loaded placed, by rw [processJmp, hPlaced, Option.map_some],
    fun p hp => (hReady.ok.midpoint p hp).area, fun b hb => ?_, ?_⟩
  · exact (createInsts_trampolines hReady.ok hTakeOver hA0).1.kept
      (fun hPatch hPrior => (hPatch.frame hReady.ok hb).trans hPrior) rfl
  · intro armed state hReplay
    have hState := hReplay.ok hReady
    refine ⟨?_, ?_, ?_, ?_⟩
    · intro i p hp hi hLast
      obtain ⟨q, hq, hqPc⟩ := placed_getElem? hKeys hp
      have hqCall : q ∈ (placed.drop 1).dropLast := by
        refine List.mem_of_getElem? (?_ : (placed.drop 1).dropLast[i - 1]? = some q)
        rw [List.getElem?_dropLast, List.length_drop, if_pos (by omega), List.getElem?_drop,
          Nat.add_sub_cancel' (by omega), hq]
      exact hqPc ▸ (hState.code.calls q hqCall).entersLoader hReady.ok hState.code hTakeOver
    · intro hArmed
      exact (hState.exit hArmed).entersLoader hReady.ok hState.code hTakeOver
    · intro i p hp hLast
      obtain ⟨q, hq, hqPc⟩ := placed_getElem? hKeys hp
      have hInfo : state.runningInfo.sysJmpinfos[i]? = some (jmpInfo i q) := by
        rw [hState.infos]
        exact createInsts_sysJmpinfos places loaded hq (by omega)
      have hRet : retAddr i q = retAddr i p := by simp only [retAddr, hqPc]
      obtain ⟨hReturns, hArmed⟩ := @ReplayOk.returns _ _ _ _ takeOver _ _ _ _ _ hState hReady hq
        (by omega) hA0
      rw [hRet] at hReturns hArmed
      have hPatch := updateJmpInst_patch hReady hState.infos (List.mem_of_getElem? hInfo)
      exact ⟨jmpInfo i q, hInfo, hReturns, hArmed, fun b hb => hPatch.frame hReady.ok hb⟩
    · exact fun b hb => (armExit_patch hReady hState.exitpc hState.exitJmpInst).1.frame hReady.ok hb

section Takeover

variable {sysinfos : List SyscallInfo} {ranges : List MemRangeInfo} {places : Places}
  {takeOver : CodeAddr} {loaded state : Loader} {npc k : Nat} {placed : List PCs} {armed : Bool}
  {info : SyscallInfo} {regs : Nat → Nat}

/-- Only the memory, `tempMemory` and `program_intregs` matter for a return. -/
theorem ReturnsTo.congr {other : Loader} {pc : Nat} (h : ReturnsTo places takeOver state pc)
    (hMemory : other.memory = state.memory) (hTemp : other.tempMemory = state.tempMemory)
    (hRegs : other.program_intregs = state.program_intregs) :
    ReturnsTo places takeOver other pc := by
  have hBus : other.bus places takeOver = state.bus places takeOver := by
    simp only [Loader.bus, hMemory, hRegs]
  simpa only [ReturnsTo, startJump, hBus, hTemp, hRegs] using h

/-- The last steps of `read_ckptinfo` before `StartJump`: without calls the exit
is replaced at once, and the return to `npc` is prepared. -/
def startProgram (ready : Loader) : Loader :=
  let entry := ready.runningInfo.sysJmpinfos.getD 0 ⟨0, 0, 0⟩
  updateJmpInst entry
    (if ready.runningInfo.totalcallnum = 0 ∧ ready.runningInfo.exitpc ≠ 0 then armExit
      ready else ready)

/-- A replay starts at `npc`, with the exit replaced if no call will do it. -/
theorem startProgram_starts
    (hReads : ReadsCalls sysinfos loaded.runningInfo) (hLayout : TextLayout ranges)
    (hJumps : JumpPlaces ranges loaded.runningInfo npc)
    (hTakeOver : places.takeOverAddr < 2 ^ 31) (hA0 : places.a0 < 2 ^ 31)
    (hPlaced : findMidPoints (getRangeInfo ranges) (loaded.runningInfo.pcs npc) = some placed) :
    (∃ armed, Replay (loaded.runningInfo.patchedPcs npc) placed
        (createInsts places loaded placed) armed (startProgram (createInsts places loaded placed)) ∧
        (sysinfos = [] → loaded.runningInfo.exitpc ≠ 0 → armed = true)) ∧
      ReturnsTo places takeOver (startProgram (createInsts places loaded placed)) npc := by
  have hReady := prepared_of_findMidPoints hReads.indexed hLayout hJumps hTakeOver hA0 hPlaced
  have hKeys := findMidPoints_keys (hReads.indexed.pcs_labels npc) hPlaced
  obtain ⟨p, hp, hPc⟩ := placed_getElem? hKeys
    (show (loaded.runningInfo.pcs npc)[0]? = some { label := 0, pc := npc } from rfl)
  have hLast : 0 + 1 < placed.length := by
    rw [placed_length hKeys, hReads.pcs_length]
    omega
  have hEntry := createInsts_sysJmpinfos places loaded hp hLast
  have hTotal : (createInsts places loaded placed).runningInfo.totalcallnum = sysinfos.length :=
    hReads.totalcallnum
  have hExitpc : (createInsts places loaded placed).runningInfo.exitpc =
      loaded.runningInfo.exitpc := rfl
  simp only [startProgram, List.getD_eq_getElem?_getD, hEntry, Option.getD_some, hTotal, hExitpc]
  have hGoal : ∀ {armed state}, Replay (loaded.runningInfo.patchedPcs npc) placed
      (createInsts places loaded placed) armed state →
      Replay (loaded.runningInfo.patchedPcs npc) placed (createInsts places loaded placed)
        armed (updateJmpInst (jmpInfo 0 p) state) ∧
      ReturnsTo places takeOver (updateJmpInst (jmpInfo 0 p) state) npc := by
    intro armed state hReplay
    have hState := hReplay.ok hReady
    have hMem : jmpInfo 0 p ∈ state.runningInfo.sysJmpinfos := by
      rw [hState.infos]
      exact List.mem_of_getElem? hEntry
    have hRet : retAddr 0 p = npc := hPc
    exact ⟨hReplay.update hMem, hRet ▸ (hState.returns hReady hp hLast hA0).1⟩
  by_cases hNone : sysinfos.length = 0 ∧ loaded.runningInfo.exitpc ≠ 0
  · rw [if_pos hNone]
    obtain ⟨hReplay, hReturns⟩ := hGoal (Replay.start.arm)
    exact ⟨⟨true, hReplay, fun _ _ => rfl⟩, hReturns⟩
  · rw [if_neg hNone]
    obtain ⟨hReplay, hReturns⟩ := hGoal Replay.start
    refine ⟨⟨false, hReplay, fun hEmpty hExit => absurd ⟨?_, hExit⟩ hNone⟩, hReturns⟩
    rw [hEmpty, List.length_nil]

/-- The takeover of the `k`-th call is part of a replay: if the recorded output
does not hit the jumps, the program goes on behind the call with its recorded
result, and after the last call the exit is replaced. -/
theorem takeoverSyscall_continues (hFits : ∀ info ∈ sysinfos, info.Fits)
    (hReads : ReadsCalls sysinfos loaded.runningInfo) (hLayout : TextLayout ranges)
    (hJumps : JumpPlaces ranges loaded.runningInfo npc)
    (hTakeOver : places.takeOverAddr < 2 ^ 31) (hA0 : places.a0 < 2 ^ 31)
    (hPlaced : findMidPoints (getRangeInfo ranges) (loaded.runningInfo.pcs npc) = some placed)
    (hReplay : Replay (loaded.runningInfo.patchedPcs npc) placed
      (createInsts places loaded placed) armed state)
    (hRunning : state.runningInfo =
      { (createInsts places loaded placed).runningInfo with nowcallnum := k })
    (hInfo : sysinfos[k]? = some info) (hNum : regs 17 = info.num)
    (hOutput : ∀ b, info.bufaddr ≤ b → b < info.bufaddr + info.data.length →
      ¬ Patched (loaded.runningInfo.patchedPcs npc) placed b) :
    ∃ after, takeoverSyscall regs state = some after ∧
      (∃ armed', Replay (loaded.runningInfo.patchedPcs npc) placed
        (createInsts places loaded placed) armed' after ∧
          (k + 1 = sysinfos.length → armed' = true)) ∧
      ReturnsTo places takeOver after (info.pc + 4) ∧
      after.program_intregs 10 = if info.hasret then info.ret else info.params.getD 0 0 := by
  have hReady := prepared_of_findMidPoints hReads.indexed hLayout hJumps hTakeOver hA0 hPlaced
  obtain ⟨i, p, after, hi, hp, hLast, hPc, hEntry, hAfter, hReplays⟩ :=
    hReads.takeover places hFits hPlaced hInfo hRunning hNum
  have hRet : retAddr i p = info.pc + 4 := by rw [retAddr, if_neg hi, hPc]
  have hTotal : (createInsts places loaded placed).runningInfo.totalcallnum = sysinfos.length :=
    hReads.totalcallnum
  -- the recorded output and the new registers come first, then the return
  let written : Loader := { state with
    memory := if info.data ≠ [] ∧ info.bufaddr ≠ 0 then store state.memory info.bufaddr info.data
      else state.memory
    program_intregs := after.program_intregs }
  have hWritten : Replay (loaded.runningInfo.patchedPcs npc) placed
      (createInsts places loaded placed) armed written := by
    refine hReplay.other (fun b hb => ?_) rfl rfl rfl
    simp only [written]
    split
    · refine store_outside ?_
      by_contra hIn
      exact hOutput b (by omega) (by omega) hb
    · rfl
  have hMem : jmpInfo i p ∈ written.runningInfo.sysJmpinfos := by
    rw [show written.runningInfo = state.runningInfo from rfl, hRunning]
    exact List.mem_of_getElem? hEntry
  obtain ⟨hReturns, hReturnsArmed⟩ := @ReplayOk.returns _ _ _ _ takeOver _ _ _ _ i
    (hWritten.ok hReady) hReady hp hLast hA0
  rw [hRet] at hReturns hReturnsArmed
  have hCount : after.runningInfo.nowcallnum = k + 1 := by
    rw [hReplays.running, hRunning]
  have hAll : after.runningInfo.totalcallnum = sysinfos.length := by
    rw [hReplays.running, hRunning, hTotal]
  have hMemory : after.memory = if k + 1 = sysinfos.length then
      (armExit (updateJmpInst (jmpInfo i p) written)).memory
      else (updateJmpInst (jmpInfo i p) written).memory := by
    rw [← hCount, ← hAll]
    exact hReplays.memory
  have hExitpc : after.runningInfo.exitpc = state.runningInfo.exitpc := by rw [hReplays.running]
  have hExit : after.runningInfo.exitJmpInst = state.runningInfo.exitJmpInst := by
    rw [hReplays.running]
  have hInfos : after.runningInfo.sysJmpinfos = state.runningInfo.sysJmpinfos := by
    rw [hReplays.running]
  refine ⟨after, hAfter, ?_⟩
  by_cases hEnd : k + 1 = sysinfos.length
  · rw [if_pos hEnd] at hMemory
    exact ⟨⟨true, (hWritten.update hMem).arm.other (fun b _ => congrFun hMemory b) hExitpc
      hExit hInfos, fun _ => rfl⟩, hReturnsArmed.congr hMemory hReplays.target rfl, hReplays.a0⟩
  · rw [if_neg hEnd] at hMemory
    exact ⟨⟨armed, (hWritten.update hMem).other (fun b _ => congrFun hMemory b) hExitpc
      hExit hInfos, fun h => absurd h hEnd⟩, hReturns.congr hMemory hReplays.target rfl,
      hReplays.a0⟩

end Takeover

def sampleText : List MemRangeInfo := [⟨0x10000, 0x1000⟩, ⟨0x12000, 0x1000⟩]

theorem sampleText_layout : TextLayout sampleText where
  aligned := by decide
  nonempty := by decide
  apart := by decide
  span := by decide
  addresses := by decide

theorem processJmp_transfers_sample :
    ∃ ready, processJmp (getRangeInfo sampleText) samplePlaces 0x10000 sampleLoader = some ready ∧
      EntersLoader samplePlaces ⟨0x20100, by decide⟩ ready 0x10020 ∧
      ∃ info, ready.runningInfo.sysJmpinfos[0]? = some info ∧
        ReturnsTo samplePlaces ⟨0x20100, by decide⟩ (updateJmpInst info ready) 0x10000 := by
  have hIndexed : sampleLoader.runningInfo.Indexed := ⟨by decide +kernel, by decide +kernel⟩
  have hJumps : JumpPlaces sampleText sampleLoader.runningInfo 0x10000 :=
    ⟨by decide +kernel, by decide +kernel⟩
  have hSome :
      (findMidPoints (getRangeInfo sampleText) (sampleLoader.runningInfo.pcs 0x10000)).isSome := by
    decide +kernel
  obtain ⟨placed, hPlaced⟩ := Option.isSome_iff_exists.mp hSome
  obtain ⟨ready, hReady, -, -, hReplay⟩ := processJmp_transfers ⟨0x20100, by decide⟩ hIndexed
    sampleText_layout hJumps (show samplePlaces.takeOverAddr < 2 ^ 31 by decide)
    (show samplePlaces.a0 < 2 ^ 31 by decide) hPlaced
  obtain ⟨hEnters, -, hReturns, -⟩ := hReplay false ready .start
  obtain ⟨info, hInfo, hBack, -⟩ := hReturns 0 _ rfl (by decide +kernel)
  exact ⟨ready, hReady, hEnters 2 { label := 2, pc := 0x10020 } (by decide +kernel) (by decide)
    (by decide +kernel), info, hInfo, hBack⟩

end RiscvCkpt

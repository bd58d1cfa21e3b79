import RiscvCkpt.Base.ByteCodec
import RiscvCkpt.Base.ByteMemory
import RiscvCkpt.Base.MachineInt
import RiscvCkpt.Create.CkptInfo

/-! The jumps between the restored program and the loader. System calls, the
start and the exit of the replay become jumps through midpoints, which lie in
the unused gaps between the executed text ranges. -/
namespace RiscvCkpt

open ByteCodec ByteMemory MachineInt

/-- The restorer reads the ranges that the simulator has written. -/
abbrev MemRangeInfo := CodeRange

/-- Where a return into the program starts, and the `jal` that has to stand at
its end for it to arrive. -/
structure JmpRepInfo where
  jalr_target : Nat
  jal_addr : Nat
  jal_inst : Nat
  deriving DecidableEq, Repr

/-- `RunningInfo` without its performance counters. `callinfo` holds the bytes
at `syscall_info_addr`. -/
structure RunningInfo where
  exitpc : Nat
  callinfo : List UInt8
  nowcallnum : Nat
  totalcallnum : Nat
  exitJmpInst : Nat
  sysJmpinfos : List JmpRepInfo
  deriving DecidableEq, Repr

/-- The loader: the memory of the program it runs, and its own variables.
`tempMemory` is the first word of the array of that name. -/
structure Loader where
  memory : Memory
  program_intregs : Nat → Nat
  tempMemory : Nat
  runningInfo : RunningInfo

/-- `*((uint32_t *)addr) = inst`. -/
def storeInst (m : Memory) (addr inst : Nat) : Memory := store m addr (wordBytes 4 inst)

/-- Consecutive instructions, stored one after the other. -/
def storeInsts (m : Memory) (addr : Nat) : List Nat → Memory
  | [] => m
  | inst :: rest => storeInsts (storeInst m addr inst) (addr + 4) rest

/-- A stored instruction is four bytes that do not depend on what was there. -/
theorem storeInst_writes (addr inst : Nat) :
    Writes (fun m => storeInst m addr inst) (fun b => addr ≤ b ∧ b < addr + 4) :=
  (Writes.store addr (wordBytes 4 inst)).congr fun b => by rw [wordBytes_length]

/-- Stored instructions change the bytes they occupy and no others. -/
theorem storeInsts_writes (addr : Nat) (insts : List Nat) :
    Writes (fun m => storeInsts m addr insts)
      (fun b => addr ≤ b ∧ b < addr + 4 * insts.length) := by
  induction insts generalizing addr with
  | nil =>
      refine Writes.nothing.congr fun b => ⟨False.elim, fun hb => ?_⟩
      exact absurd hb.2 (Nat.not_lt.mpr hb.1)
  | cons inst rest ih =>
      refine ((storeInst_writes addr inst).comp (ih (addr + 4))).congr fun b => ?_
      rw [List.length_cons]
      omega

def createJAL (base target : Nat) : Nat :=
  let offset := uint32 ((target : Int) - base)
  let v1 := offset / 2 % 1024
  let v11 := offset / 2048 % 2
  let v12 := offset / 4096 % 256
  let v20 := offset / 1048576 % 2
  let imm20 := v12 + v11 * 256 + v1 * 512 + v20 * 524288
  0x6f + imm20 * 4096

def createJALR (srcreg : Nat) : Nat := srcreg % 32 * 32768 + 0x67

def createLD (dstreg basereg offset : Nat) : Nat :=
  offset % 4096 * 1048576 + basereg % 32 * 32768 + 3 * 4096 + dstreg % 32 * 128 + 0x3

/-- `createImm32`: the `lui` and the `addiw` that load a 32-bit constant. -/
def createImm32 (dstreg imm32 : Nat) : Nat × Nat :=
  let imm12 := imm32 % 4096
  let imm20 := if imm12 / 2048 = 1 then imm32 / 4096 + 1 else imm32 / 4096
  ((imm20 * 4096 + dstreg % 32 * 128 + 0x37) % 4294967296,
    imm12 * 1048576 + dstreg % 32 * 32768 + dstreg % 32 * 128 + 0x1b)

/-- `text_seg`, which `loadelf` maps: from the first range to a page past the last. -/
def textSeg (ranges : List MemRangeInfo) : MemRangeInfo :=
  let first := ranges.headD ⟨0, 0⟩
  let last := ranges.getLastD ⟨0, 0⟩
  ⟨first.addr, uint64 ((last.addr : Int) + last.size + 4096 - first.addr)⟩

/-- The loop of `getRangeInfo`: the gaps between neighbouring text ranges. -/
def gaps (seg : MemRangeInfo) : List MemRangeInfo → List MemRangeInfo
  | prev :: next :: rest =>
      let range : MemRangeInfo :=
        ⟨(prev.addr + prev.size) % 18446744073709551616,
          uint64 ((next.addr : Int) - (prev.addr + prev.size))⟩
      if next.addr > (seg.addr + seg.size) % 18446744073709551616 then []
      else if range.size > 0 then range :: gaps seg (next :: rest)
      else gaps seg (next :: rest)
  | _ => []

/-- `getRangeInfo`: the free ranges of a checkpoint with these text ranges. -/
def getRangeInfo (ranges : List MemRangeInfo) : List MemRangeInfo := gaps (textSeg ranges) ranges

/-- `PCs`: a place that control leaves or enters, with its midpoint. -/
structure PCs where
  label : Nat
  pc : Nat
  midpoint : Nat := 0
  deriving DecidableEq, Repr

def MaxJALOffset : Int := 0xFFFF0

/-- `freemem`: the bytes that a midpoint needs. -/
def freemem : Nat := 64

/-- The inner loop of `findMidPoints`, from the current range on: the midpoint
of `pc` and the ranges that remain for later pcs. It gives up if the next range
above is too far, or no range is left. -/
def seekMidPoint (pc : Nat) : List MemRangeInfo → Option (Nat × List MemRangeInfo)
  | [] => none
  | range :: rest =>
      if pc < range.addr then
        if int32 (uint64 ((range.addr : Int) + freemem - pc)) ≤ MaxJALOffset then
          some (range.addr, range :: rest)
        else none
      else
        let midpoint := uint64 ((range.addr : Int) + range.size - freemem)
        if int32 (uint64 ((pc : Int) - midpoint)) ≤ MaxJALOffset then some (midpoint, range :: rest)
        else seekMidPoint pc rest

/-- The outer loop of `findMidPoints` over the pcs in ascending order. -/
def placeMidPoints (ranges : List MemRangeInfo) : List PCs → Option (List PCs)
  | [] => some []
  | p :: rest =>
      (seekMidPoint p.pc ranges).bind fun found =>
        (placeMidPoints found.2 rest).map fun placed => { p with midpoint := found.1 } :: placed

/-- `findMidPoints`; `none` where the source prints a message and exits. -/
def findMidPoints (freeRanges : List MemRangeInfo) (pcs : List PCs) : Option (List PCs) :=
  (placeMidPoints freeRanges (pcs.insertionSort fun a b => a.pc ≤ b.pc)).map fun placed =>
    placed.insertionSort fun a b => a.label ≤ b.label

/-- The instructions that load the word at `memaddr` into `a0`. -/
def loadA0 (memaddr : Nat) : List Nat :=
  [(createImm32 10 memaddr).1, (createImm32 10 memaddr).2, createLD 10 10 0]

/-- `createInsts_jmp2loader` on the pcs behind the first: the way from every
replaced instruction to the loader. The last pc is the exit; its jump is kept
for later. -/
def createInstsJmp2loader (memaddr : Nat) (m : Memory) : List PCs → Memory × Nat
  | [] => (m, 0)
  | [p] => (storeInsts m p.midpoint (loadA0 memaddr ++ [createJALR 10]), createJAL p.pc p.midpoint)
  | p :: rest =>
      createInstsJmp2loader memaddr
        (storeInst (storeInsts m p.midpoint (loadA0 memaddr ++ [createJALR 10])) p.pc
          (createJAL p.pc p.midpoint)) rest

/-- `ret_addr`: where the program goes on. The first pc is the start itself. -/
def retAddr (i : Nat) (p : PCs) : Nat := if i = 0 then p.pc else p.pc + 4

def jmpInfo (i : Nat) (p : PCs) : JmpRepInfo :=
  ⟨p.midpoint + 32, p.midpoint + 32 + 12, createJAL (p.midpoint + 32 + 12) (retAddr i p)⟩

/-- `createInsts_jmp2prog` on all pcs but the last: the way back into the
program, without the final jump. -/
def createInstsJmp2prog (memaddr : Nat) (m : Memory) (pcs : List PCs) : Memory × List JmpRepInfo :=
  (pcs.foldl (fun m p => storeInsts m (p.midpoint + 32) (loadA0 memaddr)) m, pcs.mapIdx jmpInfo)

def RunningInfo.sysidx (run : RunningInfo) (i : Nat) : Nat := wordAt 4 run.callinfo (8 + 4 * i)

def RunningInfo.infoaddr (run : RunningInfo) (i : Nat) : Nat := 8 + 4 * run.totalcallnum + 40 * i

/-- `diffcallnum`: the largest record index, `-1` if there is none. -/
def RunningInfo.diffcallnum (run : RunningInfo) : Int :=
  (List.range run.totalcallnum).foldl
    (fun diff i => if int32 (run.sysidx i) > diff then int32 (run.sysidx i) else diff) (-1)

/-- The pcs that `processJmp` collects: the start, every recorded call, the exit. -/
def RunningInfo.pcs (run : RunningInfo) (npc : Nat) : List PCs :=
  { label := 0, pc := npc } ::
    (List.range (run.diffcallnum + 1).toNat).map
      (fun i => { label := i + 1, pc := wordAt 8 run.callinfo (run.infoaddr i) }) ++
    [{ label := run.totalcallnum + 1, pc := run.exitpc }]

/-- The addresses of the two variables of the loader that the jump code reads. -/
structure Places where
  takeOverAddr : Nat
  a0 : Nat
  distinct : takeOverAddr ≠ a0

/-- `processJmp` once every pc has its midpoint. -/
def createInsts (places : Places) (loader : Loader) (pcs : List PCs) : Loader :=
  let toLoader :=
    createInstsJmp2loader (places.takeOverAddr % 4294967296) loader.memory (pcs.drop 1)
  let toProg := createInstsJmp2prog (places.a0 % 4294967296) toLoader.1 pcs.dropLast
  { loader with
    memory := toProg.1,
    runningInfo := { loader.runningInfo with exitJmpInst := toLoader.2, sysJmpinfos := toProg.2 } }

def processJmp (freeRanges : List MemRangeInfo) (places : Places) (npc : Nat) (loader : Loader) :
    Option Loader :=
  (findMidPoints freeRanges (loader.runningInfo.pcs npc)).map (createInsts places loader)

def updateJmpInst (info : JmpRepInfo) (loader : Loader) : Loader :=
  { loader with
    tempMemory := info.jalr_target, memory := storeInst loader.memory info.jal_addr info.jal_inst }

/-- What `findMidPoints` must not change. -/
def PCs.key (p : PCs) : Nat × Nat := (p.label, p.pc)

/-- Placing the midpoints keeps labels and pcs. -/
theorem placeMidPoints_keys {ranges : List MemRangeInfo} {pcs placed : List PCs}
    (h : placeMidPoints ranges pcs = some placed) : placed.map PCs.key = pcs.map PCs.key := by
  induction pcs generalizing ranges placed with
  | nil =>
      obtain rfl := Option.some.inj h
      rfl
  | cons p rest ih =>
      simp only [placeMidPoints, Option.bind_eq_some_iff, Option.map_eq_some_iff] at h
      obtain ⟨found, -, tail, hTail, rfl⟩ := h
      rw [List.map_cons, List.map_cons, ih hTail]
      rfl

/-- Sorting by label undoes the sorting by pc. -/
theorem findMidPoints_keys {freeRanges : List MemRangeInfo} {pcs placed : List PCs}
    (hLabels : pcs.Pairwise fun a b => a.label < b.label)
    (h : findMidPoints freeRanges pcs = some placed) : placed.map PCs.key = pcs.map PCs.key := by
  simp only [findMidPoints, Option.map_eq_some_iff] at h
  obtain ⟨byPc, hByPc, rfl⟩ := h
  have hPerm : ((byPc.insertionSort fun a b => a.label ≤ b.label).map PCs.key).Perm
      (pcs.map PCs.key) := by
    refine ((List.perm_insertionSort _ _).map _).trans ?_
    rw [placeMidPoints_keys hByPc]
    exact (List.perm_insertionSort _ _).map _
  have hSorted : ((byPc.insertionSort fun a b => a.label ≤ b.label).map PCs.key).Pairwise
      fun x y => x.1 ≤ y.1 := List.pairwise_map.mpr (List.pairwise_insertionSort _ _)
  have hStrict : (pcs.map PCs.key).Pairwise fun x y => x.1 < y.1 := List.pairwise_map.mpr hLabels
  have hNodup : ((pcs.map PCs.key).map Prod.fst).Nodup :=
    List.pairwise_map.mpr (hStrict.imp Nat.ne_of_lt)
  refine hPerm.eq_of_pairwise ?_ hSorted (hStrict.imp Nat.le_of_lt)
  -- labels identify the pcs
  intro x y hx hy hxy hyx
  exact List.inj_on_of_nodup_map hNodup (hPerm.mem_iff.mp hx) hy (Nat.le_antisymm hxy hyx)

/-- The return entry of the `i`-th pc. -/
theorem createInsts_sysJmpinfos (places : Places) (loader : Loader) {pcs : List PCs}
    {i : Nat} {p : PCs} (h : pcs[i]? = some p) (hLast : i + 1 < pcs.length) :
    (createInsts places loader pcs).runningInfo.sysJmpinfos[i]? = some (jmpInfo i p) := by
  have hInit : pcs.dropLast[i]? = some p := by
    rw [List.getElem?_dropLast, if_pos (by omega), h]
  simp only [createInsts, createInstsJmp2prog, List.getElem?_mapIdx, hInit, Option.map_some]

/-- The index of every call is below the number of calls, which fits an `int`. -/
structure RunningInfo.Indexed (run : RunningInfo) : Prop where
  count : run.totalcallnum < 2 ^ 31
  sysidx : ∀ i < run.totalcallnum, run.sysidx i < run.totalcallnum

section Indexed

variable {run : RunningInfo}

/-- The largest record index is `-1` or the index of a call. -/
theorem RunningInfo.Indexed.diffcallnum (h : run.Indexed) :
    -1 ≤ run.diffcallnum ∧ run.diffcallnum < run.totalcallnum := by
  -- the bounds hold for the maximum over every part of the scan
  have hScan : ∀ (is : List Nat) (diff : Int), (∀ i ∈ is, i < run.totalcallnum) →
      -1 ≤ diff ∧ diff < run.totalcallnum →
      -1 ≤ is.foldl (fun diff i => if int32 (run.sysidx i) > diff then int32 (run.sysidx i)
        else diff) diff ∧
      is.foldl (fun diff i => if int32 (run.sysidx i) > diff then int32 (run.sysidx i)
        else diff) diff < run.totalcallnum := by
    intro is
    induction is with
    | nil => exact fun diff _ hDiff => hDiff
    | cons i rest ih =>
        intro diff hMem hDiff
        have hIdx := h.sysidx i (hMem i (by simp))
        have hCount := h.count
        rw [List.foldl_cons, int32_of_lt (by omega)]
        refine ih _ (fun j hj => hMem j (by simp [hj])) ?_
        split <;> omega
  exact hScan _ (-1) (fun i hi => List.mem_range.mp hi) ⟨by omega, by omega⟩

/-- The labels ascend, so sorting by label keeps the order of the scan. -/
theorem RunningInfo.Indexed.pcs_labels (h : run.Indexed) (npc : Nat) :
    (run.pcs npc).Pairwise fun a b => a.label < b.label := by
  have hDiff := h.diffcallnum
  refine List.pairwise_append.mpr ⟨List.pairwise_cons.mpr ⟨?_, ?_⟩, List.pairwise_singleton _ _, ?_⟩
  · intro p hp
    obtain ⟨i, -, rfl⟩ := List.mem_map.mp hp
    exact Nat.succ_pos i
  · refine List.pairwise_map.mpr (List.pairwise_lt_range.imp ?_)
    intro i j hij
    exact Nat.succ_lt_succ hij
  · intro p hp q hq
    obtain rfl := List.mem_singleton.mp hq
    rcases List.mem_cons.mp hp with rfl | hp
    · exact Nat.succ_pos _
    · obtain ⟨i, hi, rfl⟩ := List.mem_map.mp hp
      have hLt := List.mem_range.mp hi
      simp only
      omega

theorem RunningInfo.pcs_getLast? (run : RunningInfo) (npc : Nat) :
    (run.pcs npc).getLast? = some { label := run.totalcallnum + 1, pc := run.exitpc } :=
  List.getLast?_concat

end Indexed

end RiscvCkpt

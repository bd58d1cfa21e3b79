import RiscvCkpt.Create.DetectOver
import RiscvCkpt.Create.SaveFirstLoads
import RiscvCkpt.Create.SaveSysInfo
import RiscvCkpt.Restore.UserJmp

/-! The fixed part of a checkpoint file: two tables of ranges, and between them the numbers
and the registers of the start. The loader walks through it, the simulator that executes a
checkpoint jumps over it. Two of the words hold two numbers each. -/
namespace RiscvCkpt

open ByteCodec MachineInt

def rangeRecord (range : CodeRange) : List UInt8 := [range.addr, range.size].flatMap (wordBytes 8)

def rangeTable (ranges : List CodeRange) : List UInt8 :=
  wordBytes 8 ranges.length ++ ranges.flatMap rangeRecord

def regWords (regs : List Nat) : List Nat := (List.range 32).map fun k => regs.getD k 0

namespace CkptInfo

/-- The number of the first instruction. A simulator that executes a checkpoint counts from
the start of that checkpoint. -/
def savedStart (ckptstartnum : Option Nat) (info : CkptInfo) : Nat :=
  match ckptstartnum with
  | none => info.startnum
  | some ckptstartnum => (ckptstartnum + info.startnum) % 2 ^ 64

/-- `mem` of `saveCkptInfo`. -/
def startWords (ckptstartnum : Option Nat) (info : CkptInfo) : List Nat :=
  [info.savedStart ckptstartnum,
    (info.simNums + info.warmup * 2 ^ 32) % 2 ^ 64,
    info.exit_pc,
    (2 + uint64 ((info.length : Int) - info.warmup) * 4) % 2 ^ 64,
    info.npc]

/-- What `saveCkptInfo` writes behind the fixed part, and the compression buffer it leaves. -/
def saveSections (fastlz : FastLZ) (buf : WriteBuf) (info : CkptInfo) : List UInt8 × WriteBuf :=
  let loads := saveFLoadsComp fastlz buf info.firstloads
  (loads.1 ++ saveSysInfo info.sysinfos, loads.2)

/-- `CkptInfo::saveCkptInfo`: the bytes of the file. `ckptstartnum` is there if a checkpoint
is executed. -/
def saveCkptInfo (ckptstartnum : Option Nat) (fastlz : FastLZ) (buf : WriteBuf) (info : CkptInfo) :
    List UInt8 × WriteBuf :=
  let sections := info.saveSections fastlz buf
  (rangeTable info.textrange ++
    ((info.startWords ckptstartnum ++ regWords info.intregs ++ regWords info.fpregs).flatMap
      (wordBytes 8) ++ (rangeTable info.memrange ++ sections.1)), sections.2)

end CkptInfo

def rangesAt (file : List UInt8) (place num : Nat) : List MemRangeInfo :=
  (List.range num).map fun i => ⟨wordAt 8 file (place + i * 16), wordAt 8 file (place + i * 16 + 8)⟩

/-- The text ranges as `loadelf` reads them; `none` where it reads past the end of `tempdata`,
which has room for 2048 ranges. -/
def readTextinfo (file : List UInt8) : Option (List MemRangeInfo) :=
  let numinfos := wordAt 8 file 0
  if numinfos ≤ 2048 then some (rangesAt file 8 numinfos) else none

/-- The ranges that `alloc_memrange` reads from a position on, and the position behind them;
`none` where its counter, an `int`, overflows. -/
def readMemrange (file : List UInt8) (place : Nat) : Option (List MemRangeInfo × Nat) :=
  let mrange_num := wordAt 8 file place
  if mrange_num < 2 ^ 31 then
    some (rangesAt file (place + 8) mrange_num, place + 8 + mrange_num * 16)
  else none

/-- What `read_ckptinfo` learns from the fixed part. -/
structure CkptHeader where
  start : Nat
  simNum : Nat
  warmup : Nat
  exitpc : Nat
  exit_cause : Nat
  runLength : Nat
  npc : Nat
  program_intregs : List Nat
  program_fpregs : List Nat
  memrange : List MemRangeInfo
  deriving DecidableEq, Repr

/-- The steps 1 to 3 of `read_ckptinfo`, and the rest of the file. -/
def readCkptinfo (file : List UInt8) : Option (CkptHeader × List UInt8) :=
  let temp := wordAt 8 file 0
  let word := fun k => wordAt 8 file (16 * temp + 8 + k * 8)
  (readMemrange file (16 * temp + 8 + 69 * 8)).map fun ranges =>
    ({ start := word 0
       simNum := word 1 % 2 ^ 32
       warmup := word 1 / 2 ^ 32
       exitpc := word 2
       exit_cause := word 3 % 4
       runLength := word 3 / 4
       npc := word 4
       program_intregs := (List.range 32).map fun k => word (5 + k)
       program_fpregs := (List.range 32).map fun k => word (5 + 32 + k)
       memrange := ranges.1 },
      file.drop ranges.2)

/-- The jumps of `initCkptSysInfo`: the start number it reads, and where it expects the
first loads. -/
def initCkptSysInfo (file : List UInt8) : Nat × Nat :=
  let numtext := wordAt 8 file 0
  let ckptstartnum := wordAt 8 file (8 + numtext * 16)
  let offset := 8 + numtext * 16 + 5 * 8 + 64 * 8
  let nummem := wordAt 8 file offset
  (ckptstartnum, offset + 8 + nummem * 16)

namespace CkptInfo

/-- The fields of a checkpoint fit their variables. -/
structure Saveable (info : CkptInfo) : Prop where
  textrange : ∀ range ∈ info.textrange, range.addr < 2 ^ 64 ∧ range.size < 2 ^ 64
  memrange : ∀ range ∈ info.memrange, range.addr < 2 ^ 64 ∧ range.size < 2 ^ 64
  intregs : info.intregs.length = 32 ∧ ∀ reg ∈ info.intregs, reg < 2 ^ 64
  fpregs : info.fpregs.length = 32 ∧ ∀ reg ∈ info.fpregs, reg < 2 ^ 64
  startnum : info.startnum < 2 ^ 64
  simNums : info.simNums < 2 ^ 64
  exit_pc : info.exit_pc < 2 ^ 64
  npc : info.npc < 2 ^ 64
  length : info.length < 2 ^ 64
  warmup : info.warmup ≤ info.length

/-- The checkpoint fits the file format and the tables of its readers. -/
structure Packs (info : CkptInfo) : Prop where
  textrange : info.textrange.length ≤ 2048
  memrange : info.memrange.length < 2 ^ 31
  simNums : info.simNums < 2 ^ 32
  warmup : info.warmup < 2 ^ 32
  runLength : info.length - info.warmup < 2 ^ 62

def fileHeader (ckptstartnum : Option Nat) (info : CkptInfo) : CkptHeader where
  start := info.savedStart ckptstartnum
  simNum := info.simNums
  warmup := info.warmup
  exitpc := info.exit_pc
  exit_cause := 2
  runLength := info.length - info.warmup
  npc := info.npc
  program_intregs := info.intregs
  program_fpregs := info.fpregs
  memrange := info.memrange

end CkptInfo

/-- Whatever the length, the exit cause is 2. -/
theorem packed_cause (runLength : Nat) : (2 + runLength * 4) % 2 ^ 64 % 4 = 2 := by
  omega

theorem rangeRecord_length (range : CodeRange) : (rangeRecord range).length = 16 :=
  length_flatMap_of_width (wordBytes_length 8) _

/-- A table of ranges is read back. -/
theorem rangesAt_of_drop {file after : List UInt8} {place : Nat} {ranges : List CodeRange}
    (hDrop : file.drop place = ranges.flatMap rangeRecord ++ after)
    (hFits : ∀ range ∈ ranges, range.addr < 2 ^ 64 ∧ range.size < 2 ^ 64) :
    rangesAt file place ranges.length = ranges := by
  apply List.ext_getElem
  · rw [rangesAt, List.length_map, List.length_range]
  · intro i hi hRange
    obtain ⟨hAddr, hSize⟩ := hFits _ (List.getElem_mem hRange)
    have hRecord := drop_flatMap rangeRecord_length hDrop (List.getElem?_eq_getElem hRange)
    have hFirst := @wordAt_words 8 _ 0 _ _ _ _ hRecord rfl (by omega)
    have hSecond := @wordAt_words 8 _ 1 _ _ _ _ hRecord rfl (by omega)
    rw [Nat.zero_mul, Nat.add_zero] at hFirst
    simp only [rangesAt, List.getElem_map, List.getElem_range]
    rw [hFirst]
    exact congrArg (CodeRange.mk _) hSecond

theorem rangesAt_length (file : List UInt8) (place num : Nat) :
    (rangesAt file place num).length = num := by
  rw [rangesAt, List.length_map, List.length_range]

theorem regWords_eq {regs : List Nat} (h : regs.length = 32) : regWords regs = regs := by
  apply List.ext_getElem
  · rw [regWords, List.length_map, List.length_range, h]
  · intro k hk hReg
    simp only [regWords, List.getElem_map, List.getElem_range]
    rw [List.getD_eq_getElem?_getD, List.getElem?_eq_getElem hReg, Option.getD_some]

section Saved

variable {info : CkptInfo} (ckptstartnum : Option Nat) (fastlz : FastLZ)
  (buf : WriteBuf)

/-- Behind the number of text ranges stand the ranges. -/
theorem saveCkptInfo_drop_textrange :
    (info.saveCkptInfo ckptstartnum fastlz buf).1.drop 8 = info.textrange.flatMap rangeRecord ++
      ((info.startWords ckptstartnum ++ regWords info.intregs ++ regWords info.fpregs).flatMap
        (wordBytes 8) ++ (rangeTable info.memrange ++ (info.saveSections fastlz buf).1)) := by
  rw [CkptInfo.saveCkptInfo, rangeTable, List.append_assoc, List.drop_left' (wordBytes_length 8 _)]

/-- Behind the text ranges stand the numbers of the start and the registers. -/
theorem saveCkptInfo_drop_words :
    (info.saveCkptInfo ckptstartnum fastlz buf).1.drop (16 * info.textrange.length + 8) =
      (info.startWords ckptstartnum ++ regWords info.intregs ++ regWords info.fpregs).flatMap
        (wordBytes 8) ++ (rangeTable info.memrange ++ (info.saveSections fastlz buf).1) := by
  rw [Nat.add_comm]
  refine drop_past (saveCkptInfo_drop_textrange ckptstartnum fastlz buf) ?_
  rw [length_flatMap_of_width rangeRecord_length, Nat.mul_comm]

/-- Behind the registers stands the table of the memory ranges. -/
theorem saveCkptInfo_drop_memrange :
    (info.saveCkptInfo ckptstartnum fastlz buf).1.drop (16 * info.textrange.length + 8 + 69 * 8) =
      rangeTable info.memrange ++ (info.saveSections fastlz buf).1 := by
  refine drop_past (saveCkptInfo_drop_words ckptstartnum fastlz buf) ?_
  rw [length_flatMap_of_width (wordBytes_length 8)]
  simp [CkptInfo.startWords, regWords]

/-- Behind the memory ranges stand the first loads and the system calls. -/
theorem saveCkptInfo_drop_sections :
    (info.saveCkptInfo ckptstartnum fastlz buf).1.drop
        (16 * info.textrange.length + 8 + 69 * 8 + 8 + info.memrange.length * 16) =
      (info.saveSections fastlz buf).1 := by
  have hRanges := @saveCkptInfo_drop_memrange info ckptstartnum fastlz buf
  rw [rangeTable, List.append_assoc] at hRanges
  refine drop_past (drop_past hRanges (wordBytes_length 8 _)) ?_
  rw [length_flatMap_of_width rangeRecord_length]

theorem saveCkptInfo_textnum (hText : info.textrange.length < 2 ^ 64) :
    wordAt 8 (info.saveCkptInfo ckptstartnum fastlz buf).1 0 = info.textrange.length := by
  have hDrop : (info.saveCkptInfo ckptstartnum fastlz buf).1.drop 0 = _ := List.append_assoc ..
  exact wordAt_of_drop hDrop (by omega)

theorem saveCkptInfo_memnum (hMem : info.memrange.length < 2 ^ 64) :
    wordAt 8 (info.saveCkptInfo ckptstartnum fastlz buf).1
      (16 * info.textrange.length + 8 + 69 * 8) =
      info.memrange.length := by
  have hDrop := @saveCkptInfo_drop_memrange info ckptstartnum fastlz buf
  rw [rangeTable, List.append_assoc] at hDrop
  exact wordAt_of_drop hDrop (by omega)

/-- The memory ranges are read back. -/
theorem readMemrange_saved (hSaved : info.Saveable) (hMem : info.memrange.length < 2 ^ 31) :
    readMemrange (info.saveCkptInfo ckptstartnum fastlz buf).1
      (16 * info.textrange.length + 8 + 69 * 8) =
      some (info.memrange,
        16 * info.textrange.length + 8 + 69 * 8 + 8 + info.memrange.length * 16) := by
  have hDrop := @saveCkptInfo_drop_memrange info ckptstartnum fastlz buf
  rw [rangeTable, List.append_assoc] at hDrop
  rw [readMemrange, saveCkptInfo_memnum ckptstartnum fastlz buf (hMem.trans (by decide)),
    if_pos hMem, rangesAt_of_drop (drop_past hDrop (wordBytes_length 8 _)) hSaved.memrange]

/-- `read_ckptinfo` on a saved file, with the packed words as they are. -/
theorem readCkptinfo_saved (hSaved : info.Saveable) (hText : info.textrange.length < 2 ^ 64) :
    readCkptinfo (info.saveCkptInfo ckptstartnum fastlz buf).1 =
      (readMemrange (info.saveCkptInfo ckptstartnum fastlz buf).1
          (16 * info.textrange.length + 8 + 69 * 8)).map fun ranges =>
        ({ start := info.savedStart ckptstartnum
           simNum := (info.simNums + info.warmup * 2 ^ 32) % 2 ^ 64 % 2 ^ 32
           warmup := (info.simNums + info.warmup * 2 ^ 32) % 2 ^ 64 / 2 ^ 32
           exitpc := info.exit_pc
           exit_cause := (2 + uint64 ((info.length : Int) - info.warmup) * 4) % 2 ^ 64 % 4
           runLength := (2 + uint64 ((info.length : Int) - info.warmup) * 4) % 2 ^ 64 / 4
           npc := info.npc
           program_intregs := info.intregs
           program_fpregs := info.fpregs
           memrange := ranges.1 },
          (info.saveCkptInfo ckptstartnum fastlz buf).1.drop ranges.2) := by
  have hWords := @saveCkptInfo_drop_words info ckptstartnum fastlz buf
  rw [regWords_eq hSaved.intregs.1, regWords_eq hSaved.fpregs.1] at hWords
  have hStart : info.savedStart ckptstartnum < 2 ^ 64 := by
    cases ckptstartnum with
    | none => exact hSaved.startnum
    | some num => exact Nat.mod_lt _ (by decide)
  have hWord : ∀ {k n : Nat}, (info.startWords ckptstartnum ++ info.intregs ++ info.fpregs)[k]? =
      some n →
      n < 2 ^ 64 → wordAt 8 (info.saveCkptInfo ckptstartnum fastlz buf).1
        (16 * info.textrange.length + 8 + k * 8) = n := fun h hn => wordAt_words hWords h (by omega)
  rw [List.append_assoc, List.flatMap_append, List.append_assoc] at hWords
  have hInt := drop_past hWords (length_flatMap_of_width (wordBytes_length 8) _)
  rw [List.flatMap_append, List.append_assoc] at hInt
  have hFp := drop_past hInt (length_flatMap_of_width (wordBytes_length 8) _)
  have hFive : (info.startWords ckptstartnum).length = 5 := rfl
  have hIntregs : (List.range 32).map
      (fun k => wordAt 8 (info.saveCkptInfo ckptstartnum fastlz buf).1
      (16 * info.textrange.length + 8 + (5 + k) * 8)) = info.intregs := by
    have hRegs := map_wordAt_words hInt fun reg hReg =>
      (hSaved.intregs.2 reg hReg).trans_le (by decide)
    rw [hSaved.intregs.1, hFive] at hRegs
    refine (List.map_congr_left fun k _ => congrArg (wordAt 8 _) ?_).trans hRegs
    omega
  have hFpregs : (List.range 32).map
      (fun k => wordAt 8 (info.saveCkptInfo ckptstartnum fastlz buf).1
      (16 * info.textrange.length + 8 + (5 + 32 + k) * 8)) = info.fpregs := by
    have hRegs := map_wordAt_words hFp fun reg hReg =>
      (hSaved.fpregs.2 reg hReg).trans_le (by decide)
    rw [hSaved.intregs.1, hSaved.fpregs.1, hFive] at hRegs
    refine (List.map_congr_left fun k _ => congrArg (wordAt 8 _) ?_).trans hRegs
    omega
  rw [readCkptinfo, saveCkptInfo_textnum ckptstartnum fastlz buf hText]
  simp only [hIntregs, hFpregs, @hWord 0 _ rfl hStart, @hWord 1 _ rfl (Nat.mod_lt _ (by decide)),
    @hWord 2 _ rfl hSaved.exit_pc, @hWord 3 _ rfl (Nat.mod_lt _ (by decide)),
    @hWord 4 _ rfl hSaved.npc]

/-- The run length does not wrap: the warm-up is a part of the length. -/
theorem runLength_saved (hSaved : info.Saveable) :
    uint64 ((info.length : Int) - info.warmup) = info.length - info.warmup := by
  have hLength := hSaved.length
  have hWarmup := hSaved.warmup
  simp only [uint64]
  omega

/-- What the readers have returned unchanged has fitted. -/
theorem packs_of_read (hSaved : info.Saveable)
    (hTextinfo : readTextinfo (info.saveCkptInfo ckptstartnum fastlz buf).1 = some info.textrange)
    (hHeader : readCkptinfo (info.saveCkptInfo ckptstartnum fastlz buf).1 =
      some (info.fileHeader ckptstartnum, (info.saveSections fastlz buf).1)) : info.Packs := by
  have hText : info.textrange.length ≤ 2048 := by
    rw [readTextinfo] at hTextinfo
    split at hTextinfo
    · next hNum => rwa [← Option.some.inj hTextinfo, rangesAt_length]
    · exact absurd hTextinfo (Option.some_ne_none _).symm
  rw [readCkptinfo_saved ckptstartnum fastlz buf hSaved (by omega), Option.map_eq_some_iff,
    runLength_saved hSaved] at hHeader
  obtain ⟨ranges, hRanges, hSame⟩ := hHeader
  obtain ⟨hFields, -⟩ := Prod.mk.inj hSame
  have hMem : info.memrange.length < 2 ^ 31 := by
    rw [readMemrange] at hRanges
    split at hRanges
    · next hNum =>
        have hMemrange : ranges.1 = info.memrange := congrArg CkptHeader.memrange hFields
        rwa [← hMemrange, ← Option.some.inj hRanges, rangesAt_length]
    · exact absurd hRanges (Option.some_ne_none _).symm
  have hSimNum : _ = info.simNums := congrArg CkptHeader.simNum hFields
  have hWarmup : _ = info.warmup := congrArg CkptHeader.warmup hFields
  have hLength : _ = info.length - info.warmup := congrArg CkptHeader.runLength hFields
  simp only at hSimNum hWarmup hLength
  exact ⟨hText, hMem, by omega, by omega, by omega⟩

/-- A header whose numbers fit is read back, up to the first loads. -/
theorem readCkptinfo_packs (hSaved : info.Saveable) (hPacks : info.Packs) :
    readCkptinfo (info.saveCkptInfo ckptstartnum fastlz buf).1 =
      some (info.fileHeader ckptstartnum, (info.saveSections fastlz buf).1) := by
  have hSimNums := hPacks.simNums
  have hWarmup := hPacks.warmup
  have hLength := hPacks.runLength
  have hSimNum : (info.simNums + info.warmup * 2 ^ 32) % 2 ^ 64 % 2 ^ 32 = info.simNums := by omega
  have hHigh : (info.simNums + info.warmup * 2 ^ 32) % 2 ^ 64 / 2 ^ 32 = info.warmup := by omega
  have hRun : (2 + (info.length - info.warmup) * 4) % 2 ^ 64 / 4 =
      info.length - info.warmup := by omega
  rw [readCkptinfo_saved ckptstartnum fastlz buf hSaved (hPacks.textrange.trans_lt (by decide)),
    readMemrange_saved ckptstartnum fastlz buf hSaved hPacks.memrange, Option.map_some,
    saveCkptInfo_drop_sections, hSimNum, hHigh, runLength_saved hSaved, packed_cause, hRun]
  rfl

/-- The fixed part of a checkpoint file. Its readers find the ranges, the numbers, the
registers and the place of the first loads exactly if the numbers that share a word fit into
their parts of it, and the tables fit the readers. -/
theorem ckptFile_roundtrip_iff (hSaved : info.Saveable) :
    (readTextinfo (info.saveCkptInfo ckptstartnum fastlz buf).1 = some info.textrange ∧
      readCkptinfo (info.saveCkptInfo ckptstartnum fastlz buf).1 =
        some (info.fileHeader ckptstartnum, (info.saveSections fastlz buf).1) ∧
      (initCkptSysInfo (info.saveCkptInfo ckptstartnum fastlz buf).1).1 =
        info.savedStart ckptstartnum ∧
      (info.saveCkptInfo ckptstartnum fastlz buf).1.drop
          (initCkptSysInfo (info.saveCkptInfo ckptstartnum fastlz buf).1).2 =
        (info.saveSections fastlz buf).1) ↔
    info.Packs := by
  constructor
  · rintro ⟨hTextinfo, hHeader, -, -⟩
    exact packs_of_read ckptstartnum fastlz buf hSaved hTextinfo hHeader
  · intro hPacks
    have hText := hPacks.textrange
    have hMem := hPacks.memrange
    have hTextnum := saveCkptInfo_textnum ckptstartnum fastlz buf (hText.trans_lt (by decide))
    have hMemnum := saveCkptInfo_memnum ckptstartnum fastlz buf (hMem.trans (by decide))
    have hSections := @saveCkptInfo_drop_sections info ckptstartnum fastlz buf
    have hMemrange := readMemrange_saved ckptstartnum fastlz buf hSaved hMem
    have hHeader := @readCkptinfo_packs info ckptstartnum fastlz buf hSaved hPacks
    have hSeek : 8 + info.textrange.length * 16 + 5 * 8 + 64 * 8 =
        16 * info.textrange.length + 8 + 69 * 8 := by ring
    refine ⟨?_, hHeader, ?_, ?_⟩
    · rw [readTextinfo, hTextnum, if_pos hText,
        rangesAt_of_drop (saveCkptInfo_drop_textrange ckptstartnum fastlz buf) hSaved.textrange]
    · have hStart := congrArg (fun read => read.map fun found => found.1.start) hHeader
      rw [readCkptinfo, hTextnum, hMemrange] at hStart
      rw [initCkptSysInfo, hTextnum, Nat.add_comm 8, Nat.mul_comm _ 16]
      exact Option.some.inj hStart
    · rw [initCkptSysInfo, hTextnum, hSeek, hMemnum, hSections]

end Saved

/-- A checkpoint of `length` instructions, all in one page, that ends where it should. -/
def sliceCkpt (length warmup : Nat) : CkptInfo :=
  ((CkptInfo.create 0 length warmup (List.replicate 32 0) (List.replicate 32 0) 0x1000
    0x1000).addinst 0x1000).close (fun _ => 0) length 0x1004

theorem sliceCkpt_saveable {length warmup : Nat} (hLength : length < 2 ^ 64)
    (hWarmup : warmup ≤ length) :
    (sliceCkpt length warmup).Saveable := by
  have hSimNums : (sliceCkpt length warmup).simNums < 2 ^ 64 := by
    simp only [sliceCkpt, CkptInfo.close, uint64]
    omega
  have hText : (sliceCkpt length warmup).textrange = (sliceCkpt 0 0).textrange := rfl
  have hMem : (sliceCkpt length warmup).memrange = (sliceCkpt 0 0).memrange := rfl
  have hRegs : ∀ reg ∈ List.replicate 32 0, reg < 2 ^ 64 := fun reg hReg => by
    rw [List.eq_of_mem_replicate hReg]
    decide
  refine ⟨?_, ?_, ⟨rfl, hRegs⟩, ⟨rfl, hRegs⟩, (by decide : 0 < 2 ^ 64), hSimNums,
    (by decide : 0x1004 < 2 ^ 64), (by decide : 0x1000 < 2 ^ 64), hLength, hWarmup⟩
  · rw [hText]
    decide +kernel
  · rw [hMem]
    decide +kernel

/-- A short checkpoint with a warm-up. -/
theorem ckptFile_roundtrip_short :
    (sliceCkpt 1000 100).Saveable ∧ ∀ fastlz buf,
      readCkptinfo ((sliceCkpt 1000 100).saveCkptInfo none fastlz buf).1 =
        some ((sliceCkpt 1000 100).fileHeader none,
          ((sliceCkpt 1000 100).saveSections fastlz buf).1) := by
  have hSaved := sliceCkpt_saveable (show 1000 < 2 ^ 64 by decide) (show 100 ≤ 1000 by decide)
  refine ⟨hSaved, fun fastlz buf => ((ckptFile_roundtrip_iff none fastlz buf hSaved).mpr ?_).2.1⟩
  exact ⟨by decide +kernel, by decide +kernel, by decide +kernel, by decide +kernel,
    by decide +kernel⟩

/-- A checkpoint of 2^32 instructions: the number carries into the warm-up. -/
theorem ckptFile_loses_simNums :
    (sliceCkpt (2 ^ 32) 0).Saveable ∧ (sliceCkpt (2 ^ 32) 0).simNums = 2 ^ 32 ∧
    ∀ fastlz buf, ∃ header, readCkptinfo ((sliceCkpt (2 ^ 32) 0).saveCkptInfo none fastlz buf).1 =
        some (header, ((sliceCkpt (2 ^ 32) 0).saveSections fastlz buf).1) ∧
      header.simNum = 0 ∧ header.warmup = 1 := by
  have hSaved := sliceCkpt_saveable (show 2 ^ 32 < 2 ^ 64 by decide) (Nat.zero_le _)
  have hSimNums : (sliceCkpt (2 ^ 32) 0).simNums = 2 ^ 32 := by decide +kernel
  refine ⟨hSaved, hSimNums, fun fastlz buf => ?_⟩
  have hRead := readCkptinfo_saved none fastlz buf hSaved (by decide +kernel)
  rw [readMemrange_saved none fastlz buf hSaved (by decide +kernel), Option.map_some,
    saveCkptInfo_drop_sections, hSimNums] at hRead
  exact ⟨_, hRead, rfl, rfl⟩

/-- Text ranges of a file: whole pages in ascending order. -/
structure TextPages (ranges : List CodeRange) : Prop where
  aligned : ∀ r ∈ ranges, 4096 ∣ r.addr ∧ 4096 ∣ r.size
  sorted : ranges.Pairwise fun a b => a.stop ≤ b.addr
  addresses : ∀ r ∈ ranges, r.addr < 2 ^ 64 ∧ r.size < 2 ^ 64 ∧ r.stop ≤ 2 ^ 64
  count : ranges.length < 2 ^ 64

section TextTable

variable {ranges : List CodeRange} (h : TextPages ranges)

include h

/-- The ranges are read from the file as they were written. -/
theorem TextPages.read (rest : List UInt8) :
    wordAt 8 (rangeTable ranges ++ rest) 0 = ranges.length ∧
    rangesAt (rangeTable ranges ++ rest) 8 ranges.length = ranges := by
  have hDrop : (rangeTable ranges ++ rest).drop 0 =
      wordBytes 8 ranges.length ++ (ranges.flatMap rangeRecord ++ rest) := by
    rw [List.drop_zero, rangeTable, List.append_assoc]
  have hCount := h.count
  exact ⟨wordAt_of_drop hDrop (by omega), rangesAt_of_drop (drop_past hDrop (wordBytes_length 8 _))
    fun r hr => ⟨(h.addresses r hr).1, (h.addresses r hr).2.1⟩⟩

/-- The first range begins below all others. -/
theorem TextPages.first_le {first : CodeRange} (hFirst : ranges.head? = some first) :
    ∀ r ∈ ranges, first.addr ≤ r.addr := by
  cases ranges with
  | nil => exact absurd hFirst (by simp)
  | cons range rest =>
      obtain rfl := Option.some.inj hFirst
      intro r hr
      rcases List.mem_cons.mp hr with rfl | hr
      · exact Nat.le_refl _
      · exact Nat.le_trans (Nat.le_add_right _ _) ((List.pairwise_cons.mp h.sorted).1 r hr)

/-- The last range ends above all others. -/
theorem TextPages.le_last {last : CodeRange} (hLast : ranges.getLast? = some last) :
    ∀ r ∈ ranges, r.stop ≤ last.stop := by
  obtain ⟨before, rfl⟩ := List.getLast?_eq_some_iff.mp hLast
  intro r hr
  rcases List.mem_append.mp hr with hr | hr
  · have hOrder := (List.pairwise_append.mp h.sorted).2.2 r hr last (List.mem_singleton_self last)
    exact Nat.le_trans hOrder (Nat.le_add_right _ _)
  · rw [List.mem_singleton.mp hr]

end TextTable

theorem rangeEnds (ranges : List CodeRange) :
    ranges = [] ∨ ∃ first last, ranges.head? = some first ∧ ranges.getLast? = some last := by
  cases ranges with
  | nil => exact Or.inl rfl
  | cons range others =>
      exact Or.inr ⟨range, _, rfl, List.getLast?_eq_some_getLast (List.cons_ne_nil range others)⟩

end RiscvCkpt

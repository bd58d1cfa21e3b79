import RiscvCkpt.Fastlz.Contract
import RiscvCkpt.Restore.CkptFile
import RiscvCkpt.Restore.ReadFloads
import RiscvCkpt.Restore.RewriteSysInfo

/-! Whole checkpoint files under the tools that rewrite them. Both tools copy the fixed part of
a file piece by piece; `compckpt` then changes the level of the first loads, `rewriteSysInfo`
copies raw first loads and makes the new section of the old system calls. -/
namespace RiscvCkpt

open ByteCodec ByteMemory

/-- The file that is read, from the present position on, and what has been written. -/
structure Copying where
  p : List UInt8
  q : List UInt8
  deriving DecidableEq, Repr

namespace Copying

/-- `fread` of `size` bytes and `fwrite` of the same; `none` where the file ends before. -/
def item (files : Copying) (size : Nat) : Option Copying :=
  if size ≤ files.p.length then some ⟨files.p.drop size, files.q ++ files.p.take size⟩ else none

def items : List Nat → Copying → Option Copying
  | [], files => some files
  | size :: rest, files => (files.item size).bind (items rest)

/-- A number and as many pairs of words; `none` where the counter, an `int`, overflows. -/
def table (files : Copying) : Option Copying :=
  let numinfos := wordAt 8 files.p 0
  if numinfos < 2 ^ 31 then items (8 :: List.replicate numinfos 16) files else none

/-- `read_ckptinfo` of a tool up to the first loads: the text ranges, `siminfo`, `npc`, the
registers in pieces of the given sizes, the memory ranges. -/
def header (regs : List Nat) (file : List UInt8) : Option Copying :=
  (table ⟨file, []⟩).bind fun files => (items (4 * 8 :: 8 :: regs) files).bind table

end Copying

/-- `read_ckptinfo` of `compckpt`: what it writes. -/
def Compckpt.readCkptinfo (lz : FastLZLevels) (compressChoice : Fin 4) (file : List UInt8) :
    Option (List UInt8) :=
  (Copying.header [8 * 32, 8 * 32] file).bind fun files =>
    (recompress lz files.p compressChoice).map fun rest => files.q ++ rest

/-- `read_ckptinfo` of `rewriteSysInfo`: the first loads are taken for raw ones. -/
def RewriteSysInfo.readCkptinfo (file : List UInt8) : Option (List UInt8) :=
  (Copying.header [8 * 64] file).bind fun files =>
    files.table.map fun files => files.q ++ readCkptsyscall files.p

/-- What the loader has taken from a file before it prepares the jumps. -/
structure Restored where
  textinfo : List MemRangeInfo
  header : CkptHeader
  memory : Memory
  callinfo : List UInt8

/-- `loadelf` reads the text ranges, the steps 1 to 5 of `read_ckptinfo` the rest. The ranges
that they map are zero before. -/
def restore (fastlz : FastLZ) (file : List UInt8) : Option Restored :=
  (readTextinfo file).bind fun textinfo =>
    (readCkptinfo file).bind fun read =>
      (recoveryFirstLoad fastlz zero read.2).map fun loads =>
        ⟨textinfo, read.1, loads.1, loads.2⟩

namespace Copying

/-- The files once `n` more bytes have been copied. -/
def advance (files : Copying) (n : Nat) : Copying := ⟨files.p.drop n, files.q ++ files.p.take n⟩

theorem advance_advance (files : Copying) (m n : Nat) :
    (files.advance m).advance n = files.advance (m + n) := by
  simp only [advance, List.drop_drop, List.append_assoc, List.take_add]

theorem advance_length (files : Copying) (n : Nat) :
    (files.advance n).p.length = files.p.length - n :=
  List.length_drop

/-- Pieces that are there are copied. -/
theorem items_eq {sizes : List Nat} {files : Copying} (h : sizes.sum ≤ files.p.length) :
    items sizes files = some (files.advance sizes.sum) := by
  induction sizes generalizing files with
  | nil => simp [items, advance]
  | cons size rest ih =>
      rw [List.sum_cons] at h ⊢
      have hItem : files.item size = some (files.advance size) := if_pos (by omega)
      have hRest : rest.sum ≤ (files.advance size).p.length := by
        rw [advance_length]
        omega
      rw [items, hItem, Option.bind_some, ih hRest, advance_advance]

/-- A table that is there is copied as a whole. -/
theorem table_eq {files : Copying} {numinfos : Nat} (hNum : wordAt 8 files.p 0 = numinfos)
    (hInt : numinfos < 2 ^ 31) (hSize : 8 + numinfos * 16 ≤ files.p.length) :
    files.table = some (files.advance (8 + numinfos * 16)) := by
  have hSum : (8 :: List.replicate numinfos 16).sum = 8 + numinfos * 16 := by
    rw [List.sum_cons, List.sum_replicate_nat]
  simp only [table, hNum, if_pos hInt]
  rw [items_eq (by rwa [hSum]), hSum]

end Copying

def memrangePlace (file : List UInt8) : Nat := 16 * wordAt 8 file 0 + 8 + 69 * 8

/-- A whole fixed part: it is as long as its two tables say. -/
structure FixedPart (head : List UInt8) : Prop where
  text : wordAt 8 head 0 < 2 ^ 31
  mem : wordAt 8 head (memrangePlace head) < 2 ^ 31
  size : head.length = memrangePlace head + 8 + wordAt 8 head (memrangePlace head) * 16

namespace FixedPart

variable {head : List UInt8} (h : FixedPart head) (rest : List UInt8)

include h

theorem wordAt_text : wordAt 8 (head ++ rest) 0 = wordAt 8 head 0 := by
  have hSize := h.size
  exact wordAt_append (by omega) rest

theorem wordAt_mem :
    wordAt 8 (head ++ rest) (memrangePlace head) = wordAt 8 head (memrangePlace head) := by
  have hSize := h.size
  exact wordAt_append (by omega) rest

/-- The tools copy it and stop at its end. -/
theorem header_eq {regs : List Nat} (hRegs : regs.sum = 8 * 64) :
    Copying.header regs (head ++ rest) = some ⟨rest, head⟩ := by
  have hSize := h.size
  have hPlace : memrangePlace head = 8 + wordAt 8 head 0 * 16 + (4 * 8 + (8 + 8 * 64)) := by
    rw [memrangePlace]
    omega
  have hSum : (4 * 8 :: 8 :: regs).sum = 4 * 8 + (8 + 8 * 64) := by
    rw [List.sum_cons, List.sum_cons, hRegs]
  have hFile : (Copying.mk (head ++ rest) []).p.length = head.length + rest.length :=
    List.length_append
  have hText := @Copying.table_eq ⟨head ++ rest, []⟩ _ (h.wordAt_text rest) h.text (by omega)
  have hWords := @Copying.items_eq (4 * 8 :: 8 :: regs)
    (Copying.advance ⟨head ++ rest, []⟩ (8 + wordAt 8 head 0 * 16)) (by
      rw [hSum, Copying.advance_length]
      omega)
  rw [hSum, Copying.advance_advance, ← hPlace] at hWords
  have hNum : wordAt 8 ((head ++ rest).drop (memrangePlace head)) 0 =
      wordAt 8 head (memrangePlace head) := by
    rw [← h.wordAt_mem rest, wordAt, wordAt, List.drop_zero]
  have hMem :=
    @Copying.table_eq (Copying.advance ⟨head ++ rest, []⟩ (memrangePlace head)) _ hNum h.mem (by
    rw [Copying.advance_length]
    omega)
  rw [Copying.advance_advance, ← Nat.add_assoc, ← hSize] at hMem
  rw [Copying.header, hText, Option.bind_some, hWords, Option.bind_some, hMem, Copying.advance,
    List.drop_left, List.take_left, List.nil_append]

end FixedPart

/-- The fixed part of a file that `saveCkptInfo` writes. -/
def CkptInfo.fixedPart (ckptstartnum : Option Nat) (info : CkptInfo) : List UInt8 :=
  rangeTable info.textrange ++
    ((info.startWords ckptstartnum ++ regWords info.intregs ++ regWords info.fpregs).flatMap
      (wordBytes 8) ++ rangeTable info.memrange)

section Saved

variable {info : CkptInfo} (ckptstartnum : Option Nat)

/-- A file is its fixed part and its sections. -/
theorem saveCkptInfo_eq (fastlz : FastLZ) (buf : WriteBuf) :
    (info.saveCkptInfo ckptstartnum fastlz buf).1 =
      info.fixedPart ckptstartnum ++ (info.saveSections fastlz buf).1 := by
  simp only [CkptInfo.saveCkptInfo, CkptInfo.fixedPart, List.append_assoc]

theorem rangeTable_length (ranges : List CodeRange) :
    (rangeTable ranges).length = 8 + ranges.length * 16 := by
  rw [rangeTable, List.length_append, wordBytes_length, length_flatMap_of_width rangeRecord_length]

/-- The words between the tables. -/
theorem startWords_length :
    ((info.startWords ckptstartnum ++ regWords info.intregs ++ regWords info.fpregs).flatMap
      (wordBytes 8)).length = 69 * 8 := by
  rw [length_flatMap_of_width (wordBytes_length 8)]
  simp [CkptInfo.startWords, regWords]

theorem fixedPart_length :
    (info.fixedPart ckptstartnum).length =
      16 * info.textrange.length + 8 + 69 * 8 + 8 + info.memrange.length * 16 := by
  rw [CkptInfo.fixedPart, List.length_append, List.length_append, rangeTable_length,
    rangeTable_length, startWords_length]
  omega

/-- The fixed part of a checkpoint that packs is as long as its tables say. -/
theorem fixedPart_fixed (hPacks : info.Packs) : FixedPart (info.fixedPart ckptstartnum) := by
  have hText := hPacks.textrange
  have hMem := hPacks.memrange
  have hLength := @fixedPart_length info ckptstartnum
  have hFirst : (info.fixedPart ckptstartnum).drop 0 = wordBytes 8 info.textrange.length ++ _ :=
    List.append_assoc ..
  have hTextnum : wordAt 8 (info.fixedPart ckptstartnum) 0 = info.textrange.length :=
    wordAt_of_drop hFirst (by omega)
  have hPlace : memrangePlace (info.fixedPart ckptstartnum) =
      16 * info.textrange.length + 8 + 69 * 8 := by
    rw [memrangePlace, hTextnum]
  have hMemnum : wordAt 8 (info.fixedPart ckptstartnum) (16 * info.textrange.length + 8 + 69 * 8) =
      info.memrange.length := by
    have hWords : (info.fixedPart ckptstartnum).drop (16 * info.textrange.length + 8) = _ :=
      List.drop_left' ((rangeTable_length info.textrange).trans (by omega))
    have hTable := drop_past hWords (startWords_length ckptstartnum)
    rw [rangeTable] at hTable
    exact wordAt_of_drop hTable (by omega)
  refine ⟨by omega, ?_, ?_⟩
  · rwa [hPlace, hMemnum]
  · rw [hPlace, hMemnum, hLength]

/-- A file as the tool `rewriteSysInfo` expects it: raw first loads, and the old section of the
system calls. -/
def CkptInfo.saveOld (ckptstartnum : Option Nat) (info : CkptInfo) : List UInt8 :=
  info.fixedPart ckptstartnum ++ (saveFLoads info.firstloads ++ saveSysInfo1 info.sysinfos)

end Saved

section Rewritten

variable {head : List UInt8}

/-- A run of `compckpt` on a file whose first loads can be read. -/
theorem Compckpt.readCkptinfo_eq (h : FixedPart head) (lz : FastLZLevels) (level : Fin 4)
    {rest calls : List UInt8}
    {linfos : List FirstLoadInfo} (hRead : readFirstLoad lz.level1 rest = some (linfos, calls)) :
    Compckpt.readCkptinfo lz level (head ++ rest) =
      some (head ++ (firstLoadSection lz level linfos ++ calls)) := by
  rw [readCkptinfo, h.header_eq rest rfl, Option.bind_some, recompress, hRead, Option.map_some,
    Option.map_some]

/-- The section that the tool writes is the one that the simulator would write. -/
theorem RewriteSysInfo.readCkptsyscall_saved {calls : List SyscallInfo}
    (hFits : ∀ info ∈ calls, info.Fits)
    (hCount : calls.length < 2 ^ 30) :
    readCkptsyscall (saveSysInfo1 calls) = saveSysInfo calls := by
  have hTotal : wordAt 8 (saveSysInfo1 calls) 0 = calls.length :=
    wordAt_of_drop (List.drop_zero ..) (by omega)
  rw [readCkptsyscall, hTotal, process_eq fun i hi => sysinfoAt_saved hFits hCount hi]

theorem saveFLoads_length {linfos : List FirstLoadInfo} (h : WordEntries linfos) :
    (saveFLoads linfos).length = 8 + linfos.length * 16 := by
  rw [saveFLoads, List.length_append, wordBytes_length]
  induction linfos with
  | nil => rfl
  | cons info rest ih =>
      obtain ⟨hFirst, hRest⟩ := List.forall_mem_cons.mp h
      have hLength := ih hRest
      rw [List.flatMap_cons, List.length_append, List.length_append, wordBytes_length, hFirst.2,
        List.length_cons]
      omega

/-- A run of `rewriteSysInfo` on a file with raw first loads. -/
theorem RewriteSysInfo.readCkptinfo_eq (h : FixedPart head) {linfos : List FirstLoadInfo}
    (hEntries : WordEntries linfos) (hCount : linfos.length < 2 ^ 31) (rest : List UInt8) :
    RewriteSysInfo.readCkptinfo (head ++ (saveFLoads linfos ++ rest)) =
      some (head ++ (saveFLoads linfos ++ readCkptsyscall rest)) := by
  have hNum : wordAt 8 (saveFLoads linfos ++ rest) 0 = linfos.length := by
    have hDrop : (saveFLoads linfos ++ rest).drop 0 = wordBytes 8 linfos.length ++ _ :=
      List.append_assoc ..
    exact wordAt_of_drop hDrop (by omega)
  have hLength := saveFLoads_length hEntries
  have hLoads := @Copying.table_eq ⟨saveFLoads linfos ++ rest, head⟩ _ hNum hCount (by
    rw [List.length_append]
    omega)
  rw [readCkptinfo, h.header_eq _ rfl, Option.bind_some, hLoads, Option.map_some,
    Copying.advance, ← hLength, List.drop_left, List.take_left, List.append_assoc]

/-- Two tools bring an old file up to date: `rewriteSysInfo`, and `compckpt` at its default
level. The result is, byte for byte, the file that the recorder writes now. -/
theorem upgraded_eq (lz : FastLZLevels) (ckptstartnum : Option Nat) {info : CkptInfo}
    (hPacks : info.Packs)
    (hEntries : WordEntries info.firstloads) (hLoads : info.firstloads.length < 2 ^ 31)
    (hTag : Compckpt.Untagged 0 info.firstloads) (hFits : ∀ call ∈ info.sysinfos, call.Fits)
    (hCalls : info.sysinfos.length < 2 ^ 30) :
    (RewriteSysInfo.readCkptinfo (info.saveOld ckptstartnum)).bind
        (Compckpt.readCkptinfo lz Compckpt.gem5Choice) =
      some (info.saveCkptInfo ckptstartnum lz.level1 WriteBuf.empty).1 := by
  have hFixed := fixedPart_fixed ckptstartnum hPacks
  have hRead : readFirstLoad lz.level1 (saveFLoads info.firstloads ++ saveSysInfo info.sysinfos) =
      some (info.firstloads, saveSysInfo info.sysinfos) :=
    (rawRoundTrip_untagged lz hEntries hLoads hTag _ (List.mem_cons_self ..) zero _).1
  have hWriter := Compckpt.Writer.output_eq lz .saveFLoadsComp info.firstloads
  rw [CkptInfo.saveOld, RewriteSysInfo.readCkptinfo_eq hFixed hEntries hLoads,
    RewriteSysInfo.readCkptsyscall_saved hFits hCalls, Option.bind_some,
    Compckpt.readCkptinfo_eq hFixed lz Compckpt.gem5Choice hRead, saveCkptInfo_eq]
  exact congrArg
    (fun loads => some (info.fixedPart ckptstartnum ++ (loads ++ saveSysInfo info.sysinfos)))
    hWriter.symm

def sampleCkpt : CkptInfo :=
  { sliceCkpt 1000 100 with
    firstloads := CkptInfo.combineLoads [] Compckpt.sampleBytes
    sysinfos := sampleCalls }

theorem sampleCkpt_packs : sampleCkpt.Packs :=
  ⟨by decide +kernel, by decide +kernel, by decide +kernel, by decide +kernel, by decide +kernel⟩

theorem upgraded_eq_sample :
    (RewriteSysInfo.readCkptinfo (sampleCkpt.saveOld none)).bind
        (Compckpt.readCkptinfo Compckpt.storeLevels Compckpt.gem5Choice) =
      some (sampleCkpt.saveCkptInfo none Compckpt.storeLevels.level1 WriteBuf.empty).1 := by
  have hEntries : WordEntries sampleCkpt.firstloads := by
    unfold WordEntries
    decide +kernel
  have hFits : ∀ call ∈ sampleCkpt.sysinfos, call.Fits := by
    intro call hCall
    simp only [sampleCkpt, sampleCalls, List.mem_cons, List.not_mem_nil, or_false] at hCall
    rcases hCall with rfl | rfl | rfl <;> constructor <;> decide
  exact upgraded_eq Compckpt.storeLevels none sampleCkpt_packs hEntries (by decide +kernel)
    (by decide +kernel) hFits (by decide)

end Rewritten

section Chain

open Fastlz

/-- Every section that the runs write, each with its build of FastLZ, fits the readers. -/
def RunsFit (linfos : List FirstLoadInfo) : List (Build × Fin 4) → Prop
  | [] => True
  | run :: rest =>
      Compckpt.SectionFits (fastlzLevels run.1) run.2 linfos ∧
        RunsFit (Compckpt.decoded run.2 linfos) rest

instance RunsFit.decidable (linfos : List FirstLoadInfo) :
    (runs : List (Build × Fin 4)) → Decidable (RunsFit linfos runs)
  | [] => inferInstanceAs (Decidable True)
  | run :: rest =>
      have := RunsFit.decidable (Compckpt.decoded run.2 linfos) rest
      inferInstanceAs (Decidable (_ ∧ _))

theorem RunsFit.first {linfos : List FirstLoadInfo} {run : Build × Fin 4}
    {runs : List (Build × Fin 4)} (h : RunsFit linfos (run :: runs)) :
    Compckpt.SectionFits (fastlzLevels run.1) run.2 linfos :=
  h.1

end Chain

end RiscvCkpt

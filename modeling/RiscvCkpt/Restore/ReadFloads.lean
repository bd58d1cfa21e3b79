import RiscvCkpt.Restore.Compckpt

/-! Where the first-load section ends. gem5 skips it without restoring anything: it
counts the bits of the maps, or jumps over the compressed blocks, or multiplies the
number of entries. The restorer and the tools read the section through. -/
namespace RiscvCkpt

open ByteCodec ByteMemory CkptInfo

def countBits : Nat → Nat → Nat
  | _, 0 => 0
  | bits, n + 1 => (if bits % 2 = 1 then 1 else 0) + countBits (bits / 2) n

/-- `loadnum` of a page: the set bits of its map. -/
def countMap (cmap : List UInt8) : Nat := (cmap.map fun byte => countBits byte.toNat 8).sum

/-- The loop of `read_floads` over pages without compression. `place` is `ftell`, and
`file` holds the bytes from there on. -/
def skipDatamap (place : Nat) (file : List UInt8) : Nat → Nat
  | 0 => place
  | fuel + 1 =>
      if wordAt 8 file 0 = 0 then place + 8
      else
        let mapsize := wordAt 8 file 8 / 64
        let loadnum := countMap ((file.drop 16).take mapsize)
        skipDatamap (place + 16 + mapsize + loadnum * 8)
        (file.drop (16 + mapsize + loadnum * 8)) fuel

def skipFastlz (place : Nat) (file : List UInt8) : Nat :=
  if h : wordAt 8 file 0 = 0 then place + 8
  else
    let compsize := wordAt 8 file 0
    have : (file.drop (16 + compsize)).length < file.length := drop_block_lt h
    skipFastlz (place + 8 + 8 + compsize) (file.drop (16 + compsize))
  termination_by file.length

/-- `read_floads`: the offset of what follows the section. -/
def readFloads (place : Nat) (file : List UInt8) : Nat :=
  let compressTag := wordAt 8 file 0
  if compressTag = 0x123456 + 1 then skipDatamap (place + 8) (file.drop 8) file.length
  else if compressTag = 0x123456 + 2 ∨ compressTag = 0x123456 + 3 then
    skipFastlz (place + 8) (file.drop 8)
  else
    let loadnum := wordAt 8 file 0
    place + 8 + loadnum * 16

section Datamap

/-- A map byte has a bit for each kept word. -/
theorem countBits_packFlags {page : PageMap} (hFlag : ∀ c, page.map1 c < 2) (start n : Nat) :
    countBits (packFlags page.map1 start n) n * 8 = (keptWords page start n).length := by
  induction n generalizing start with
  | zero => rfl
  | succ n ih =>
      have hFirst := hFlag start
      have hHalf : packFlags page.map1 start (n + 1) / 2 = packFlags page.map1 (start + 1) n := by
        rw [packFlags_succ]
        omega
      have hLow : packFlags page.map1 start (n + 1) % 2 = page.map1 start := by
        rw [packFlags_succ]
        omega
      rw [countBits, hLow, hHalf, Nat.add_mul, ih, SavedPage.keptWords_succ, List.length_append]
      by_cases hKept : page.map1 start = 1
      · rw [if_pos hKept, if_pos hKept, load_length]
      · rw [if_neg hKept, if_neg hKept, List.length_nil]

/-- The number of set bits is the number of kept words. -/
theorem countMap_compressMap {page : PageMap} (hFlag : ∀ c, page.map1 c < 2) (k n : Nat) :
    countMap ((List.range' k n).map fun i => UInt8.ofNat (packFlags page.map1 (8 * i) 8)) * 8 =
      (keptWords page (8 * k) (8 * n)).length := by
  induction n generalizing k with
  | zero => rfl
  | succ n ih =>
      have hByte : (UInt8.ofNat (packFlags page.map1 (8 * k) 8)).toNat =
          packFlags page.map1 (8 * k) 8 := by
        have hLt := packFlags_lt hFlag (8 * k) 8
        rw [UInt8.toNat_ofNat']
        omega
      have hRest := ih (k + 1)
      have hStart : 8 * k + 8 = 8 * (k + 1) := by ring
      have hSplit : 8 * (n + 1) = 8 + 8 * n := by ring
      rw [countMap] at hRest ⊢
      rw [List.range'_succ, List.map_cons, List.map_cons, List.sum_cons, hByte, Nat.add_mul, hRest,
        countBits_packFlags hFlag, hSplit, SavedPage.keptWords_append, List.length_append, hStart]

/-- What `read_floads` makes of a page record is its length. -/
theorem skip_record {page : SavedPage} (h : page.Valid) (tail : List UInt8) :
    16 + wordAt 8 (page.record ++ tail) 8 / 64 +
      countMap (((page.record ++ tail).drop 16).take (wordAt 8 (page.record ++ tail) 8 / 64)) * 8 =
      page.record.length := by
  have hRecord : (page.record ++ tail).drop 0 = wordBytes 8 page.base ++
      (wordBytes 8 MaxCoverSize ++ (compressMap page.map.map1 512 ++
        (keptWords page.map 0 512 ++ tail))) := by
    simp only [List.drop_zero, SavedPage.record, pageRecord_parts, List.append_assoc]
  have hSize : (page.record ++ tail).drop 8 = _ := drop_past hRecord (wordBytes_length 8 _)
  have hMap : (page.record ++ tail).drop 16 = _ := drop_past hSize (wordBytes_length 8 _)
  have hMapsize : wordAt 8 (page.record ++ tail) 8 / 64 = 64 := by
    rw [wordAt_of_drop hSize (by decide)]
    rfl
  have hCount := countMap_compressMap h.flags 0 64
  rw [← List.range_eq_range'] at hCount
  have hBits : countMap (compressMap page.map.map1 512) * 8 = (keptWords page.map 0 512).length :=
    hCount
  rw [hMapsize, hMap, List.take_left' (compressMap_length page.map.map1 512), hBits,
    SavedPage.record, pageRecord_parts]
  simp only [List.length_append, wordBytes_length, compressMap_length]
  omega

/-- Skipping uncompressed pages ends behind the zero that ends the section. -/
theorem skipDatamap_records {pages : List SavedPage} (h : ∀ page ∈ pages, page.Valid)
    {place fuel : Nat} (hFuel : pages.length < fuel) (after : List UInt8) :
    skipDatamap place (pages.flatMap SavedPage.record ++ (wordBytes 8 0 ++ after)) fuel =
      place + (pages.flatMap SavedPage.record).length + 8 := by
  induction pages generalizing place fuel with
  | nil =>
      cases fuel with
      | zero => exact absurd hFuel (Nat.not_lt_zero _)
      | succ fuel =>
          have hEnd : (wordBytes 8 0 ++ after).drop 0 = wordBytes 8 0 ++ after := rfl
          rw [List.flatMap_nil, List.nil_append, skipDatamap,
            if_pos (wordAt_of_drop hEnd (by decide))]
          rfl
  | cons page rest ih =>
      cases fuel with
      | zero => exact absurd hFuel (Nat.not_lt_zero _)
      | succ fuel =>
          have hPage := h page (List.mem_cons_self ..)
          have hRest := @ih (fun page hp => h page (List.mem_cons_of_mem _ hp))
            (place + page.record.length) fuel (Nat.lt_of_succ_lt_succ hFuel)
          have hAddr := (SavedPage.read_record hPage
            (rest.flatMap SavedPage.record ++ (wordBytes 8 0 ++ after))).1
          have hSkip :=
            skip_record hPage (rest.flatMap SavedPage.record ++ (wordBytes 8 0 ++ after))
          rw [List.flatMap_cons, List.append_assoc, skipDatamap, hAddr, if_neg hPage.base_ne]
          simp only [Nat.add_assoc place 16, Nat.add_assoc place (16 + _), hSkip,
            List.drop_left, hRest, List.length_append]
          omega

end Datamap

section Fastlz

/-- Where the section starts only shifts the result. -/
theorem skipFastlz_place (place : Nat) (file : List UInt8) :
    skipFastlz place file = place + skipFastlz 0 file := by
  induction hLength : file.length using Nat.strong_induction_on generalizing place file with
  | _ length ih =>
      rw [skipFastlz, skipFastlz]
      split
      · rw [Nat.zero_add]
      · next hMore =>
          have hShort := hLength ▸ drop_block_lt hMore
          simp only [ih _ hShort (place + 8 + 8 + _) _ rfl, ih _ hShort (0 + 8 + 8 + _) _ rfl]
          omega

theorem skipFastlz_end {file : List UInt8} (h : wordAt 8 file 0 = 0) : skipFastlz 0 file = 8 := by
  rw [skipFastlz, dif_pos h, Nat.zero_add]

theorem skipFastlz_more {file : List UInt8} (h : wordAt 8 file 0 ≠ 0) :
    skipFastlz 0 file =
      16 + wordAt 8 file 0 + skipFastlz 0 (file.drop (16 + wordAt 8 file 0)) := by
  rw [skipFastlz, dif_neg h, skipFastlz_place, Nat.zero_add]

/-- Blocks of any size are jumped over: nothing is read into a buffer. -/
theorem skipFastlz_blocks {fastlz : FastLZ} {blocks : List WriteBuf}
    (h : ∀ block ∈ blocks, block.tempdata ≠ [] ∧
      block.tempdata.length ≤ MaxCompressSize + ExtraDataSize) (after : List UInt8) :
    skipFastlz 0 (blocks.flatMap (WriteBuf.frame fastlz) ++ (wordBytes 8 0 ++ after)) =
      (blocks.flatMap (WriteBuf.frame fastlz)).length + 8 := by
  induction blocks with
  | nil =>
      have hEnd : (wordBytes 8 0 ++ after).drop 0 = wordBytes 8 0 ++ after := rfl
      rw [List.flatMap_nil, List.nil_append, skipFastlz_end (wordAt_of_drop hEnd (by decide))]
      rfl
  | cons block rest ih =>
      obtain ⟨⟨hSome, hRoom⟩, hRest⟩ := List.forall_mem_cons.mp h
      have hSize := fastlz.compress_length _ hRoom
      have hNonzero := List.length_pos_iff.mpr (fastlz.compress_ne_nil _ hRoom hSome)
      generalize hFile : (block :: rest).flatMap (WriteBuf.frame fastlz) ++
        (wordBytes 8 0 ++ after) = file
      have hDrop : file.drop 0 = wordBytes 8 (fastlz.compress block.tempdata).length ++
          (wordBytes 8 block.infonum ++ (fastlz.compress block.tempdata ++
            (rest.flatMap (WriteBuf.frame fastlz) ++ (wordBytes 8 0 ++ after)))) := by
        simp only [← hFile, List.drop_zero, List.flatMap_cons, WriteBuf.frame, List.append_assoc]
      have hDrop8 : file.drop 8 = _ := drop_past hDrop (wordBytes_length 8 _)
      have hDrop16 : file.drop 16 = _ := drop_past hDrop8 (wordBytes_length 8 _)
      have hBehind := drop_past hDrop16 rfl
      have hCompsize := wordAt_of_drop hDrop (by omega)
      rw [skipFastlz_more (by omega), hCompsize, hBehind, ih hRest, List.flatMap_cons,
        List.length_append, WriteBuf.frame, List.length_append, List.length_append,
        wordBytes_length, wordBytes_length]
      omega

end Fastlz

namespace Compckpt

variable (lz : FastLZLevels)

/-- `read_floads` returns the end of the section, at every level. -/
theorem readFloads_section {compressChoice : Fin 4} {linfos : List FirstLoadInfo}
    (hAddr : Addressable linfos) (hCount : linfos.length < 2 ^ 64)
    (hTag : Untagged compressChoice linfos) (place : Nat) (after : List UInt8) :
    readFloads place (firstLoadSection lz compressChoice linfos ++ after) =
      place + (firstLoadSection lz compressChoice linfos).length := by
  by_cases hRaw : compressChoice = 0
  · subst hRaw
    have hTag := hTag rfl
    simp only [List.mem_cons, List.not_mem_nil, or_false, not_or] at hTag
    rw [readFloads, firstLoadSection_count lz hCount, if_neg (by omega), if_neg (by omega),
      firstLoadSection, if_pos rfl, List.length_append, wordBytes_length,
      length_flatMap_of_width loadRecord_length, Nat.add_assoc]
  · obtain ⟨hWord, hBehind, hLength⟩ := firstLoadSection_tag lz hRaw linfos after
    have hBound := compressChoice.isLt
    rw [readFloads, hWord, hBehind, hLength]
    by_cases hMap : compressChoice = 1
    · subst hMap
      have hSkip := @skipDatamap_records _ (savedPages_valid hAddr) (place + 8) _
        (firstLoadSection_pages lz linfos after) after
      rw [if_pos (by decide), compressPages_map, hSkip]
      omega
    · have hNotOne : compressChoice.val ≠ 1 := fun h => hMap (Fin.ext h)
      have hNotZero : compressChoice.val ≠ 0 := fun h => hRaw (Fin.ext h)
      have hPages : (compressPages lz compressChoice 0 WriteBuf.empty linfos).1 =
          (blocks linfos).flatMap (WriteBuf.frame (lz.level (compressChoice.val - 1))) := by
        rw [compressPages_eq lz hMap, savePages_fills]
        rfl
      rw [if_neg (by omega), if_pos (by omega), skipFastlz_place, hPages,
        skipFastlz_blocks fun block hBlock => written_block (mem_blocks hBlock)]
      omega

inductive Writer
  | saveFLoadsComp
  | compckpt (compressChoice : Fin 4)
  deriving DecidableEq, Repr

/-- What a writer makes of a list of entries. gem5 compresses at level 1 of FastLZ. -/
def Writer.output (lz : FastLZLevels) : Writer → List FirstLoadInfo → List UInt8
  | .saveFLoadsComp, linfos => (RiscvCkpt.saveFLoadsComp lz.level1 WriteBuf.empty linfos).1
  | .compckpt compressChoice, linfos => firstLoadSection lz compressChoice linfos

def Writer.level : Writer → Fin 4
  | .saveFLoadsComp => gem5Choice
  | .compckpt compressChoice => compressChoice

/-- gem5 writes what the tool writes at its default level. -/
theorem Writer.output_eq (writer : Writer) (linfos : List FirstLoadInfo) :
    writer.output lz linfos = firstLoadSection lz writer.level linfos := by
  cases writer with
  | saveFLoadsComp =>
      have hPages := @compressPages_eq lz 2 (by decide) 0 WriteBuf.empty linfos
      simp only [Writer.output, Writer.level, gem5Choice, RiscvCkpt.saveFLoadsComp,
        firstLoadSection, compressFirstLoad, hPages]
      rfl
  | compckpt compressChoice => rfl

/-- The lists that the writers are given: gem5 has them from `combine_loads`, the tool
from a section that was written before. -/
inductive Written (lz : FastLZLevels) : List FirstLoadInfo → Prop
  | combined {bytes : List (Nat × UInt8)} (hDistinct : (bytes.map Prod.fst).Nodup)
      (hAddr : ∀ byte ∈ bytes, byte.1 ≠ 0 ∧ byte.1 < 2 ^ 63) : Written lz (combineLoads [] bytes)
  | read {linfos : List FirstLoadInfo} (writer : Writer) (hTag : Untagged writer.level linfos)
      {after : List UInt8} {loads : List FirstLoadInfo × List UInt8} (h : Written lz linfos)
      (hRead : readFirstLoad lz.level1 (writer.output lz linfos ++ after) = some loads) :
      Written lz loads.1

/-- What a writer is given is a list of entries. -/
theorem Written.entryList {linfos : List FirstLoadInfo} (h : Written lz linfos) :
    ∃ support, EntryList support linfos := by
  induction h with
  | combined hDistinct hAddr => exact EntryList.combineLoads hDistinct hAddr
  | read writer hTag _ hRead ih =>
      obtain ⟨support, hEntries⟩ := ih
      rw [Writer.output_eq, hEntries.readFirstLoad lz hTag, Option.ite_none_right_eq_some] at hRead
      rw [← Option.some.inj hRead.2]
      exact ⟨support, hEntries.decoded _⟩

/-- The offset at which a reader stands that began at `place` and has left these bytes
of the file. -/
def stopOffset (place : Nat) (file left : List UInt8) : Nat := place + (file.length - left.length)

/-- A reader that gets through the file from `place` on stops at this offset. -/
def StopsAt {α : Type} (place : Nat) (file : List UInt8) (read : Option (α × List UInt8))
    (offset : Nat) : Prop :=
  ∃ done, read = some done ∧ stopOffset place file done.2 = offset

/-- For a section that a writer has written, `read_floads` returns its end. The two other
readers stop there as well exactly if no compressed block is longer than their buffer. -/
theorem readers_stop_alike_iff {linfos : List FirstLoadInfo} (h : Written lz linfos)
    (writer : Writer) (hTag : Untagged writer.level linfos) (m : Memory) (place : Nat)
    (after : List UInt8) :
    let file := writer.output lz linfos ++ after
    let stop := place + (writer.output lz linfos).length
    readFloads place file = stop ∧
    (StopsAt place file (recoveryFirstLoad lz.level1 m file) stop ∧
      StopsAt place file (readFirstLoad lz.level1 file) stop ↔
        SectionFits lz writer.level linfos) := by
  obtain ⟨support, hEntries⟩ := h.entryList
  have hCount := hEntries.count
  have hRead := hEntries.readFirstLoad lz hTag after
  have hStop : stopOffset place (firstLoadSection lz writer.level linfos ++ after) after =
      place + (firstLoadSection lz writer.level linfos).length := by
    rw [stopOffset, List.length_append, Nat.add_sub_cancel]
  simp only [Writer.output_eq, recoveryFirstLoad_eq, hRead]
  refine ⟨readFloads_section lz hEntries.addressable (by omega) hTag place after, ?_, ?_⟩
  · rintro ⟨-, done, hDone, -⟩
    exact (Option.ite_none_right_eq_some.mp hDone).1
  · intro hFits
    rw [if_pos hFits]
    exact ⟨⟨_, rfl, hStop⟩, _, rfl, hStop⟩

/-- A raw section of four loaded bytes. -/
theorem readers_stop_alike_sample :
    let file := (Writer.compckpt 0).output storeLevels (combineLoads [] sampleBytes) ++ [1, 2]
    readFloads 600 file = 600 + 40 ∧
    StopsAt 600 file (recoveryFirstLoad storeLZ zero file) (600 + 40) ∧
    StopsAt 600 file (readFirstLoad storeLZ file) (600 + 40) := by
  have hLength : ((Writer.compckpt 0).output storeLevels (combineLoads [] sampleBytes)).length =
      40 := by
    decide +kernel
  have hWritten : Written storeLevels (combineLoads [] sampleBytes) :=
    .combined (by decide) (by decide)
  obtain ⟨hSkip, hStop⟩ := readers_stop_alike_iff storeLevels hWritten (.compckpt 0)
    (by decide +kernel) zero 600 [1, 2]
  rw [hLength] at hSkip hStop
  exact ⟨hSkip, hStop.mpr (sectionFits_plain storeLevels (by decide) _)⟩

/-- What gem5 writes for the first loads of a program that reads 7533 pages of noise: gem5
skips it, but neither of the two other readers gets to its end. -/
theorem readers_overrun :
    let lz := Fastlz.fastlzLevels .arch64
    let file := Writer.saveFLoadsComp.output lz (noise 1 7533)
    Written lz (noise 1 7533) ∧ readFloads 0 file = file.length ∧
      recoveryFirstLoad lz.level1 zero file = none ∧ readFirstLoad lz.level1 file = none := by
  intro lz file
  have hChunks : ChunkList (noise 1 7533) := noise_chunkList (by decide) (by decide)
  obtain ⟨support, hEntries⟩ := noise_entryList
  have hWritten : Written lz (noise 1 7533) := by
    rw [← combineLoads_noise]
    exact .combined (chunkBytes_nodup hChunks.spaced) noise_addresses
  have hTag : Untagged gem5Choice (noise 1 7533) := nofun
  have hCount := hEntries.count
  have hSkip := readFloads_section lz hEntries.addressable (by omega) hTag 0 []
  have hRead := hEntries.readFirstLoad lz hTag []
  rw [if_neg fun hFits => Fastlz.noise_overflows .arch64 (hFits (by decide))] at hRead
  have hFile : firstLoadSection lz gem5Choice (noise 1 7533) = file :=
    (Writer.output_eq lz .saveFLoadsComp _).symm
  rw [List.append_nil, hFile] at hRead hSkip
  refine ⟨hWritten, hSkip.trans (Nat.zero_add _), ?_, hRead⟩
  rw [recoveryFirstLoad_eq, hRead, Option.map_none]

end Compckpt

end RiscvCkpt

import Mathlib.Data.Finset.Card
import RiscvCkpt.Restore.RecoverFirstLoads

/-! The `compckpt` tool reads a first-load section of any level and writes it at
another one. It works on the words that its reader cuts out of the pages: words of
two pages may overlap, zero words are gone, and the pages are laid out anew. What
stays is that no entry has a non-zero byte where a later one begins, so every
round puts the same bytes into memory. -/
namespace RiscvCkpt

open ByteCodec ByteMemory CkptInfo

namespace Compckpt

/-- The level at which gem5 writes its first loads. -/
def gem5Choice : Fin 4 := 2

/-- `compress_write` of the tool. Level 1 leaves the pages as they are. -/
def compressWrite (lz : FastLZLevels) (compressChoice : Fin 4) (buf : WriteBuf) (data : List Nat)
    (last : Bool) : List UInt8 × WriteBuf :=
  let tempdata := buf.tempdata ++ data.flatMap (wordBytes 8)
  let infonum := buf.infonum + 1
  if tempdata.length < MaxCompressSize ∧ last = false then ([], ⟨tempdata, infonum⟩)
  else if compressChoice = 1 then (tempdata, WriteBuf.empty)
  else
    let compdata := (lz.level (compressChoice.val - 1)).compress tempdata
    (wordBytes 8 compdata.length ++ (wordBytes 8 infonum ++ compdata), WriteBuf.empty)

/-- The main loop of `compress_FirstLoad` from the `i`-th entry on. -/
def compressPages (lz : FastLZLevels) (compressChoice : Fin 4) (i : Nat) (buf : WriteBuf) :
    List FirstLoadInfo → List UInt8 × WriteBuf
  | [] => ([], buf)
  | first :: rest =>
      let page := first :: rest.takeWhile (inPage first.addr)
      let later := rest.dropWhile (inPage first.addr)
      let written := compressWrite lz compressChoice buf
        (pageWords first.addr (coverPage i first.addr page)) later.isEmpty
      let others := compressPages lz compressChoice (i + page.length) written.2 later
      (written.1 ++ others.1, others.2)
  termination_by linfos => linfos.length
  decreasing_by
    exact Nat.lt_succ_of_le (List.dropWhile_sublist _).length_le

/-- `compress_FirstLoad`. A run of the tool writes one section, from the empty buffer. -/
def compressFirstLoad (lz : FastLZLevels) (compressChoice : Fin 4) (linfos : List FirstLoadInfo) :
    List UInt8 :=
  wordBytes 8 (0x123456 + compressChoice.val) ++
    ((compressPages lz compressChoice 0 WriteBuf.empty linfos).1 ++ wordBytes 8 0)

def loadRecord (info : FirstLoadInfo) : List UInt8 :=
  wordBytes 8 info.addr ++ wordBytes 8 (wordValue info.data)

/-- The first-load section at a level. Level 0 is the loop in `read_ckptinfo`. -/
def firstLoadSection (lz : FastLZLevels) (compressChoice : Fin 4) (linfos : List FirstLoadInfo) :
    List UInt8 :=
  if compressChoice = 0 then wordBytes 8 linfos.length ++ linfos.flatMap loadRecord
  else compressFirstLoad lz compressChoice linfos

/-- `read_ckptinfo` of the tool from its step 4 on: the section is read and written
at the chosen level, and `read_ckptsyscall` copies what is left of the file. -/
def recompress (lz : FastLZLevels) (file : List UInt8) (compressChoice : Fin 4) :
    Option (List UInt8) :=
  (readFirstLoad lz.level1 file).map fun loads =>
    firstLoadSection lz compressChoice loads.1 ++ loads.2

/-- A level-0 section has no tag: its first word, the number of entries, is taken
for one if it is one of the three tags. -/
def Untagged (compressChoice : Fin 4) (linfos : List FirstLoadInfo) : Prop :=
  compressChoice = 0 → linfos.length ∉ [0x123457, 0x123458, 0x123459]

instance (compressChoice : Fin 4) (linfos : List FirstLoadInfo) :
    Decidable (Untagged compressChoice linfos) :=
  inferInstanceAs (Decidable (_ → _))

/-- The readers have room for the compressed blocks of a section. The levels 0 and 1 have
none. -/
def SectionFits (lz : FastLZLevels) (compressChoice : Fin 4) (linfos : List FirstLoadInfo) : Prop :=
  2 ≤ compressChoice.val → BlocksFit (lz.level (compressChoice.val - 1)) linfos

instance (lz : FastLZLevels) (compressChoice : Fin 4) (linfos : List FirstLoadInfo) :
    Decidable (SectionFits lz compressChoice linfos) :=
  inferInstanceAs (Decidable (_ → _))

/-- The entries that a reader finds in the section of a level. -/
def decoded (compressChoice : Fin 4) (linfos : List FirstLoadInfo) : List FirstLoadInfo :=
  if compressChoice = 0 then linfos else (savedPages 0 linfos).flatMap SavedPage.entries

/-- No level-0 section that is written on the way looks tagged, if the entries are written at
the first of the levels, read, written at the second one, and so on. -/
def UntaggedChain (linfos : List FirstLoadInfo) : List (Fin 4) → Prop
  | [] => True
  | compressChoice :: rest =>
      Untagged compressChoice linfos ∧ UntaggedChain (decoded compressChoice linfos) rest

/-- Every section that is written on the way fits the readers. -/
def ChainFits (lz : FastLZLevels) (linfos : List FirstLoadInfo) : List (Fin 4) → Prop
  | [] => True
  | compressChoice :: rest =>
      SectionFits lz compressChoice linfos ∧ ChainFits lz (decoded compressChoice linfos) rest

instance ChainFits.decidable (lz : FastLZLevels) (linfos : List FirstLoadInfo) :
    (levels : List (Fin 4)) → Decidable (ChainFits lz linfos levels)
  | [] => inferInstanceAs (Decidable True)
  | compressChoice :: rest =>
      have := ChainFits.decidable lz (decoded compressChoice linfos) rest
      inferInstanceAs (Decidable (_ ∧ _))

end Compckpt

section Readers

theorem readFastlz_congr {fastlz fastlz' : FastLZ} (h : fastlz'.decompress = fastlz.decompress)
    (file : List UInt8) : readFastlz fastlz' file = readFastlz fastlz file := by
  induction hLength : file.length using Nat.strong_induction_on generalizing file with
  | _ length ih =>
      rw [readFastlz, readFastlz]
      split
      · rfl
      · next hMore =>
          have hShort := hLength ▸ drop_block_lt hMore
          simp only [ih _ hShort _ rfl, h]

/-- A reader looks at the decompression only. -/
theorem FastLZLevels.readFastlz_level (lz : FastLZLevels) (complevel : Nat) (file : List UInt8) :
    readFastlz (lz.level complevel) file = readFastlz lz.level1 file := by
  apply readFastlz_congr
  rw [FastLZLevels.level]
  split
  · rfl
  · exact lz.decompress_eq

theorem SavedPage.length_le_records (pages : List SavedPage) :
    pages.length ≤ (pages.flatMap SavedPage.record).length := by
  induction pages with
  | nil => exact Nat.zero_le _
  | cons page rest ih =>
      have hRecord := (pageRecord_length page.base page.map).1
      rw [List.flatMap_cons, List.length_append, List.length_cons, SavedPage.record]
      omega

end Readers

namespace Compckpt

variable (lz : FastLZLevels)

theorem loadRecord_length (info : FirstLoadInfo) : (loadRecord info).length = 16 := by
  rw [loadRecord, List.length_append, wordBytes_length, wordBytes_length]

/-- Above level 1 the tool writes what `saveFLoads_comp` writes, up to the tag. -/
theorem compressPages_eq {compressChoice : Fin 4} (hLevel : compressChoice ≠ 1) (i : Nat)
    (buf : WriteBuf) (linfos : List FirstLoadInfo) :
    compressPages lz compressChoice i buf linfos =
      savePages (lz.level (compressChoice.val - 1)) i buf linfos := by
  induction i, linfos using savedPages.induct generalizing buf with
  | case1 i => rw [compressPages, savePages]
  | case2 i first rest chunks =>
      rename_i ih
      simp only [compressPages, savePages, compressWrite, RiscvCkpt.compressWrite, if_neg hLevel]
      rw [ih]

/-- At level 1 the records of the pages follow each other in the file. -/
theorem compressPages_one {i : Nat} {buf : WriteBuf} {linfos : List FirstLoadInfo}
    (hBuf : linfos = [] → buf.tempdata = []) :
    (compressPages lz 1 i buf linfos).1 =
      buf.tempdata ++ (savedPages i linfos).flatMap SavedPage.record := by
  induction i, linfos using savedPages.induct generalizing buf with
  | case1 i => simp [compressPages, savedPages, hBuf rfl]
  | case2 i first rest chunks =>
      rename_i ih
      have hChunks : first :: rest.takeWhile (inPage first.addr) = chunks := rfl
      clear_value chunks
      rw [compressPages, savedPages, List.flatMap_cons]
      simp only [hChunks]
      generalize rest.dropWhile (inPage first.addr) = later at *
      have hData : (pageWords first.addr (coverPage i first.addr chunks)).flatMap (wordBytes 8) =
          SavedPage.record ⟨first.addr, coverPage i first.addr chunks⟩ := rfl
      simp only [compressWrite, hData, if_true]
      by_cases hWait : (buf.tempdata ++ SavedPage.record
          ⟨first.addr, coverPage i first.addr chunks⟩).length < MaxCompressSize ∧
            later.isEmpty = false
      · rw [if_pos hWait, List.nil_append, ih]
        · exact List.append_assoc ..
        · rintro rfl
          exact absurd hWait.2 (by simp)
      · rw [if_neg hWait, ih fun _ => rfl]
        simp [WriteBuf.empty]

/-- The pairs of a level-0 section are read back as they are. -/
theorem readNocomp_pairs {linfos : List FirstLoadInfo}
    (hSized : ∀ chunk ∈ linfos, chunk.data.length = 8)
    (hAddr : ∀ chunk ∈ linfos, chunk.addr < 2 ^ 64)
    (hCount : linfos.length < 2 ^ 64) (after : List UInt8) :
    readNocomp (wordBytes 8 linfos.length ++ linfos.flatMap loadRecord ++ after) =
      (linfos, after) := by
  generalize hFile : wordBytes 8 linfos.length ++ linfos.flatMap loadRecord ++ after = file
  have hDrop : file.drop 0 = wordBytes 8 linfos.length ++ (linfos.flatMap loadRecord ++ after) := by
    rw [← hFile, List.drop_zero, List.append_assoc]
  have hPairs : file.drop 8 = _ := drop_past hDrop (wordBytes_length 8 _)
  have hEnd := drop_past hPairs (length_flatMap_of_width loadRecord_length linfos)
  have hLoads : ∀ j, ∀ info, linfos[j]? = some info →
      wordAt 8 file (8 + 16 * j) = info.addr ∧
      wordBytes 8 (wordAt 8 file (8 + 16 * j + 8)) = info.data := by
    intro j info hInfo
    have hMem := List.mem_of_getElem? hInfo
    have hBelow := hAddr info hMem
    have hData := hSized info hMem
    have hWord := wordValue_lt info.data
    have hCode := drop_flatMap loadRecord_length hPairs hInfo
    rw [loadRecord, List.append_assoc, Nat.mul_comm j] at hCode
    have hSecond := drop_past hCode (wordBytes_length 8 _)
    rw [hData] at hWord
    refine ⟨wordAt_of_drop hCode (by omega), ?_⟩
    rw [wordAt_of_drop hSecond hWord, ← hData, wordBytes_wordValue]
  rw [readNocomp, wordAt_of_drop hDrop (by omega), Nat.mul_comm 16, hEnd]
  refine Prod.ext (List.ext_getElem (by simp) fun j hj hj' => ?_) rfl
  have hInfo := hLoads j (linfos.get ⟨j, hj'⟩) (List.getElem?_eq_getElem hj')
  simp only [List.getElem_map, List.getElem_range, hInfo.1, hInfo.2]
  rfl

/-- A section of level 0 begins with the number of its entries. -/
theorem firstLoadSection_count {linfos : List FirstLoadInfo} (hCount : linfos.length < 2 ^ 64)
    (after : List UInt8) :
    wordAt 8 (firstLoadSection lz 0 linfos ++ after) 0 = linfos.length := by
  have hDrop : (firstLoadSection lz 0 linfos ++ after).drop 0 =
      wordBytes 8 linfos.length ++ (linfos.flatMap loadRecord ++ after) := by
    rw [firstLoadSection, if_pos rfl, List.drop_zero, List.append_assoc]
  exact wordAt_of_drop hDrop (by omega)

/-- Any other section begins with its tag, in front of its pages. -/
theorem firstLoadSection_tag {compressChoice : Fin 4} (hRaw : compressChoice ≠ 0)
    (linfos : List FirstLoadInfo) (after : List UInt8) :
    wordAt 8 (firstLoadSection lz compressChoice linfos ++ after) 0 =
      0x123456 + compressChoice.val ∧
    (firstLoadSection lz compressChoice linfos ++ after).drop 8 =
      (compressPages lz compressChoice 0 WriteBuf.empty linfos).1 ++ (wordBytes 8 0 ++ after) ∧
    (firstLoadSection lz compressChoice linfos).length =
      8 + (compressPages lz compressChoice 0 WriteBuf.empty linfos).1.length + 8 := by
  have hDrop : (firstLoadSection lz compressChoice linfos ++ after).drop 0 =
      wordBytes 8 (0x123456 + compressChoice.val) ++
        ((compressPages lz compressChoice 0 WriteBuf.empty linfos).1 ++
          (wordBytes 8 0 ++ after)) := by
    rw [firstLoadSection, if_neg hRaw, compressFirstLoad]
    simp only [List.drop_zero, List.append_assoc]
  have hBound := compressChoice.isLt
  refine ⟨wordAt_of_drop hDrop (by omega), drop_past hDrop (wordBytes_length 8 _), ?_⟩
  rw [firstLoadSection, if_neg hRaw, compressFirstLoad]
  simp only [List.length_append, wordBytes_length]
  omega

/-- Without compression there is nothing that could be too long. -/
theorem sectionFits_plain {compressChoice : Fin 4} (h : compressChoice.val < 2)
    (linfos : List FirstLoadInfo) : SectionFits lz compressChoice linfos :=
  fun hBlocks => absurd h (Nat.not_lt.mpr hBlocks)

/-- At level 1 the pages are written as they are. -/
theorem compressPages_map (linfos : List FirstLoadInfo) :
    (compressPages lz 1 0 WriteBuf.empty linfos).1 =
      (savedPages 0 linfos).flatMap SavedPage.record :=
  compressPages_one lz fun _ => rfl

/-- A section of level 1 has more bytes than pages, which bounds the loops of its readers. -/
theorem firstLoadSection_pages (linfos : List FirstLoadInfo) (after : List UInt8) :
    (savedPages 0 linfos).length < (firstLoadSection lz 1 linfos ++ after).length := by
  have hPages := SavedPage.length_le_records (savedPages 0 linfos)
  have hLength := (firstLoadSection_tag lz (by decide : (1 : Fin 4) ≠ 0) linfos after).2.2
  rw [compressPages_map] at hLength
  rw [List.length_append]
  omega

/-- A section of any level is read up to its end, if its blocks fit the buffer. -/
theorem readFirstLoad_section {compressChoice : Fin 4} {linfos : List FirstLoadInfo}
    (hSized : ∀ chunk ∈ linfos, chunk.data.length = 8) (hAddr : Addressable linfos)
    (hCount : linfos.length < 2 ^ 64) (hTag : Untagged compressChoice linfos) (after : List UInt8) :
    readFirstLoad lz.level1 (firstLoadSection lz compressChoice linfos ++ after) =
      if SectionFits lz compressChoice linfos then some (decoded compressChoice linfos, after)
      else none := by
  by_cases hRaw : compressChoice = 0
  · subst hRaw
    have hTag := hTag rfl
    have hPairs := readNocomp_pairs hSized (fun chunk hc => (hAddr chunk hc).2) hCount after
    simp only [List.mem_cons, List.not_mem_nil, or_false, not_or] at hTag
    rw [readFirstLoad, firstLoadSection_count lz hCount, if_neg (by omega), if_neg (by omega),
      if_pos (sectionFits_plain lz (by decide) linfos), decoded, if_pos rfl, firstLoadSection,
      if_pos rfl, hPairs]
  · obtain ⟨hWord, hBehind, -⟩ := firstLoadSection_tag lz hRaw linfos after
    have hBound := compressChoice.isLt
    rw [readFirstLoad, hWord, hBehind, decoded, if_neg hRaw]
    by_cases hMap : compressChoice = 1
    · subst hMap
      rw [if_pos (by decide), compressPages_map, if_pos (sectionFits_plain lz (by decide) linfos),
        SavedPage.readDatamap_records (savedPages_valid hAddr)
        (firstLoadSection_pages lz linfos after)]
    · have hNotOne : compressChoice.val ≠ 1 := fun h => hMap (Fin.ext h)
      have hNotZero : compressChoice.val ≠ 0 := fun h => hRaw (Fin.ext h)
      rw [if_neg (by omega), if_pos (by omega), compressPages_eq lz hMap,
        ← lz.readFastlz_level (compressChoice.val - 1),
        readFastlz_savePages (lz.level (compressChoice.val - 1)) hAddr hCount]
      have hBlocks : 2 ≤ compressChoice.val := by omega
      exact if_congr ⟨fun hFits _ => hFits, fun hFits => hFits hBlocks⟩ rfl rfl

end Compckpt

/-- Entries that a section can hold, with the addresses of the bytes they leave
non-zero. There are fewer of these than an `int` can count, which keeps the number
of entries in bounds however often the section is rewritten. -/
structure EntryList (support : Finset Nat) (linfos : List FirstLoadInfo) : Prop where
  sized : ∀ chunk ∈ linfos, chunk.data.length = 8
  layered : Layered linfos
  nonzero : ∀ chunk ∈ linfos, chunk.addr ≠ 0
  below : ∀ chunk ∈ linfos, chunk.addr < 2 ^ 63
  count : linfos.length < 2 ^ 31
  inside : ∀ a, writeChunks zero linfos a ≠ 0 → a ∈ support
  few : support.card < 2 ^ 31
  bounded : ∀ a ∈ support, a < 2 ^ 63

section Support

variable {linfos : List FirstLoadInfo}

/-- A non-zero byte of an entry is not overwritten. -/
theorem Layered.writeChunks_byte (h : Layered linfos) (m : Memory) {info : FirstLoadInfo}
    (hInfo : info ∈ linfos) {k : Nat} (hByte : info.data.getD k 0 ≠ 0) :
    writeChunks m linfos (info.addr + k) = info.data.getD k 0 := by
  have hInside : k < info.data.length := by
    by_contra hOut
    exact hByte (by rw [List.getD_eq_getElem?_getD, List.getElem?_eq_none (by omega)]; rfl)
  obtain ⟨before, after, rfl⟩ := List.append_of_mem hInfo
  apply writeChunks_at m before hInside
  intro later hLater
  by_contra hOver
  have hSplit := (List.pairwise_append.mp h).2.1
  exact hByte (((List.pairwise_cons.mp hSplit).1 later hLater).2 k (by omega))

def FirstLoadInfo.mark (info : FirstLoadInfo) : Nat := info.addr + info.data.findIdx (· ≠ 0)

/-- A word other than zero has a byte other than zero at its mark. -/
theorem FirstLoadInfo.mark_byte {info : FirstLoadInfo} (h : wordValue info.data ≠ 0) :
    info.data.getD (info.data.findIdx (· ≠ 0)) 0 ≠ 0 := by
  have hSome : ∃ byte ∈ info.data, byte ≠ 0 := by
    by_contra hNone
    push Not at hNone
    exact h ((wordValue_eq_zero_iff _).mpr hNone)
  have hIndex : info.data.findIdx (· ≠ 0) < info.data.length := by
    rw [List.findIdx_lt_length]
    simpa using hSome
  have hByte := List.findIdx_getElem (w := hIndex)
  rw [List.getD_eq_getElem?_getD, List.getElem?_eq_getElem hIndex]
  simpa using hByte

/-- The marks of a layered list are among the bytes that it leaves other than zero. -/
theorem Layered.mark_mem (h : Layered linfos) {support : Finset Nat}
    (hInside : ∀ a, writeChunks zero linfos a ≠ 0 → a ∈ support) {info : FirstLoadInfo}
    (hInfo : info ∈ linfos) (hWord : wordValue info.data ≠ 0) : info.mark ∈ support := by
  have hByte := FirstLoadInfo.mark_byte hWord
  apply hInside
  rw [FirstLoadInfo.mark, h.writeChunks_byte zero hInfo hByte]
  exact hByte

/-- Entries that are not zero have a byte of their own each. -/
theorem Layered.length_le_card (h : Layered linfos) {support : Finset Nat}
    (hInside : ∀ a, writeChunks zero linfos a ≠ 0 → a ∈ support)
    (hWords : ∀ info ∈ linfos, wordValue info.data ≠ 0) : linfos.length ≤ support.card := by
  have hMarks : (linfos.map FirstLoadInfo.mark).Nodup := by
    apply List.pairwise_map.mpr
    apply h.imp_of_mem
    intro x y hx _ hxy hSame
    have hBelow : ¬ y.addr ≤ x.mark := fun hOver =>
      FirstLoadInfo.mark_byte (hWords x hx) (hxy.2 _ hOver)
    exact hBelow (hSame ▸ Nat.le_add_right _ _)
  have hSub : (linfos.map FirstLoadInfo.mark).toFinset ⊆ support := by
    intro a ha
    obtain ⟨info, hInfo, rfl⟩ := List.mem_map.mp (List.mem_toFinset.mp ha)
    exact h.mark_mem hInside hInfo (hWords info hInfo)
  calc linfos.length = (linfos.map FirstLoadInfo.mark).toFinset.card := by
        rw [List.toFinset_card_of_nodup hMarks, List.length_map]
    _ ≤ support.card := Finset.card_le_card hSub

end Support

section Words

variable {page : SavedPage}

/-- Words of one page do not overlap. -/
theorem SavedPage.entries_layered (page : SavedPage) : Layered page.entries := by
  apply List.pairwise_map.mpr
  apply List.Pairwise.filter
  apply List.Pairwise.imp _ (List.pairwise_lt_range' ..)
  intro c d hcd
  simp only
  refine ⟨by omega, fun k hk => ?_⟩
  rw [List.getD_eq_getElem?_getD, List.getElem?_eq_none (by rw [load_length]; omega)]
  rfl

/-- An entry that does not fit the page starts behind every word of it. -/
theorem addr_of_dropWhile {first chunk : FirstLoadInfo} {rest : List FirstLoadInfo}
    (hLayered : Layered rest) (h : chunk ∈ rest.dropWhile (inPage first.addr)) :
    first.addr + MaxCoverSize < chunk.addr + 8 := by
  induction rest with
  | nil => exact absurd h List.not_mem_nil
  | cons next rest ih =>
      obtain ⟨hNext, hRest⟩ := List.pairwise_cons.mp hLayered
      by_cases hIn : inPage first.addr next = true
      · rw [List.dropWhile_cons_of_pos hIn] at h
        exact ih hRest h
      · rw [List.dropWhile_cons_of_neg hIn] at h
        have hFar : first.addr + MaxCoverSize < next.addr + 8 := by
          simpa [inPage] using hIn
        rcases List.mem_cons.mp h with rfl | h
        · exact hFar
        · have hAbove := (hNext chunk h).1
          omega

/-- The words that a reader cuts out of the pages: none is zero, and again none has a
non-zero byte where a later one begins. -/
theorem savedPages_layered {i : Nat} {linfos : List FirstLoadInfo}
    (hSized : ∀ chunk ∈ linfos, chunk.data.length = 8) (hLayered : Layered linfos)
    (hIndex : i + linfos.length < 2 ^ 31) :
    Layered ((savedPages i linfos).flatMap SavedPage.entries) ∧
    ∀ info ∈ (savedPages i linfos).flatMap SavedPage.entries, wordValue info.data ≠ 0 := by
  induction i, linfos using savedPages.induct with
  | case1 i =>
      rw [savedPages]
      exact ⟨List.Pairwise.nil, fun info h => absurd h List.not_mem_nil⟩
  | case2 i first rest chunks =>
      rename_i ih
      have hChunks : first :: rest.takeWhile (inPage first.addr) = chunks := rfl
      have hSplit : chunks ++ rest.dropWhile (inPage first.addr) = first :: rest := by
        rw [← hChunks, List.cons_append, List.takeWhile_append_dropWhile]
      have hFar := fun chunk =>
        @addr_of_dropWhile first chunk rest (List.pairwise_cons.mp hLayered).2
      obtain ⟨hExact, hCopy⟩ := coverPage_spec (by omega : i < 2 ^ 31)
        (onPage_takeWhile hSized hLayered) (fun _ _ => rfl : ∀ b, first.addr ≤ b → zero b = 0)
      rw [← hSplit] at hSized hLayered hIndex
      rw [List.length_append] at hIndex
      obtain ⟨-, hLater, hCross⟩ := List.pairwise_append.mp hLayered
      obtain ⟨hWords, hNonzero⟩ :=
        ih (fun c hc => hSized c (List.mem_append_right _ hc)) hLater (by omega)
      rw [hChunks] at hExact hCopy
      rw [savedPages, List.flatMap_cons]
      simp only [hChunks]
      constructor
      · apply List.pairwise_append.mpr ⟨SavedPage.entries_layered _, hWords, ?_⟩
        intro x hx y hy
        obtain ⟨c, hc, -, rfl⟩ := SavedPage.mem_entries hx
        obtain ⟨other, hOther, hWord⟩ := List.mem_flatMap.mp hy
        obtain ⟨d, -, -, rfl⟩ := SavedPage.mem_entries hWord
        obtain ⟨chunk, hChunk, hBase⟩ := base_of_savedPages hOther
        have hBehind := hFar chunk hChunk
        simp only [MaxCoverSize] at hBehind
        simp only [hBase]
        refine ⟨by omega, fun k hk => ?_⟩
        by_cases hShort : k < 8
        · -- the byte belongs to the later page, where no entry of this page is set
          rw [load_getD hShort, hCopy]
          apply writeChunks_zero rfl
          intro z hz hUp
          apply (hCross z hz chunk hChunk).2
          omega
        · rw [List.getD_eq_getElem?_getD, List.getElem?_eq_none (by rw [load_length]; omega)]
          rfl
      · intro info hInfo
        rcases List.mem_append.mp hInfo with hInfo | hInfo
        · obtain ⟨c, -, hKept, rfl⟩ := SavedPage.mem_entries hInfo
          have hFlag := hExact c
          rw [hKept, wordFlag] at hFlag
          intro hZero
          rw [if_pos hZero] at hFlag
          exact Nat.one_ne_zero hFlag
        · exact hNonzero info hInfo

end Words

namespace EntryList

variable {support : Finset Nat} {linfos : List FirstLoadInfo}

theorem addressable (h : EntryList support linfos) : Addressable linfos := by
  intro chunk hc
  have hBelow := h.below chunk hc
  exact ⟨h.nonzero chunk hc, by omega⟩

/-- Restoring what a reader finds in a section does what restoring its entries does. -/
theorem writeChunks_decoded (h : EntryList support linfos) (compressChoice : Fin 4) :
    writeChunks zero (Compckpt.decoded compressChoice linfos) = writeChunks zero linfos := by
  have hCount := h.count
  rw [Compckpt.decoded]
  split
  · rfl
  · exact writeChunks_savedPages h.sized h.layered (by omega) fun _ _ _ _ => rfl

/-- What a reader finds in a section can be written again. -/
theorem decoded (h : EntryList support linfos) (compressChoice : Fin 4) :
    EntryList support (Compckpt.decoded compressChoice linfos) := by
  have hMemory := h.writeChunks_decoded compressChoice
  have hInside := h.inside
  rw [← hMemory] at hInside
  by_cases hRaw : compressChoice = 0
  · rw [Compckpt.decoded, if_pos hRaw]
    exact h
  · rw [Compckpt.decoded, if_neg hRaw] at hInside ⊢
    have hIndex := h.count
    have hFew := h.few
    obtain ⟨hLayered, hWords⟩ := @savedPages_layered 0 linfos h.sized h.layered (by omega)
    have hLength := hLayered.length_le_card hInside hWords
    refine ⟨?_, hLayered, ?_, ?_, by omega, hInside, h.few, h.bounded⟩
    · intro info hInfo
      obtain ⟨page, -, hWord⟩ := List.mem_flatMap.mp hInfo
      obtain ⟨c, -, -, rfl⟩ := SavedPage.mem_entries hWord
      exact load_length ..
    · intro info hInfo
      obtain ⟨page, hPage, hWord⟩ := List.mem_flatMap.mp hInfo
      obtain ⟨c, -, -, rfl⟩ := SavedPage.mem_entries hWord
      have hBase := (savedPages_valid h.addressable page hPage).base_ne
      simp only
      omega
    · intro info hInfo
      have hMark := h.bounded _ (hLayered.mark_mem hInside hInfo (hWords info hInfo))
      exact Nat.lt_of_le_of_lt (Nat.le_add_right _ _) hMark

/-- A section written for the entries is read up to its end, if its blocks fit. -/
theorem readFirstLoad (h : EntryList support linfos) (lz : FastLZLevels) {compressChoice : Fin 4}
    (hTag : Compckpt.Untagged compressChoice linfos) (after : List UInt8) :
    RiscvCkpt.readFirstLoad lz.level1
        (Compckpt.firstLoadSection lz compressChoice linfos ++ after) =
      if Compckpt.SectionFits lz compressChoice linfos then
        some (Compckpt.decoded compressChoice linfos, after)
      else none := by
  have hCount := h.count
  exact Compckpt.readFirstLoad_section lz h.sized h.addressable (by omega) hTag after

/-- A section puts its entries into zeroed memory, if its blocks fit. -/
theorem recoveryFirstLoad (h : EntryList support linfos) (lz : FastLZLevels)
    {compressChoice : Fin 4} (hTag : Compckpt.Untagged compressChoice linfos) (after : List UInt8) :
    RiscvCkpt.recoveryFirstLoad lz.level1 zero
      (Compckpt.firstLoadSection lz compressChoice linfos ++ after) =
      if Compckpt.SectionFits lz compressChoice linfos then some (writeChunks zero linfos, after)
      else none := by
  rw [recoveryFirstLoad_eq, h.readFirstLoad lz hTag, apply_ite (Option.map _), Option.map_some,
    Option.map_none, h.writeChunks_decoded]

/-- Any chain of runs of the tool leaves what the section restores, if all sections on the way
fit; else one of the readers overruns its buffer. -/
theorem recovery_chain (h : EntryList support linfos) (lz : FastLZLevels) {compressChoice : Fin 4}
    {levels : List (Fin 4)} (hTags : Compckpt.UntaggedChain linfos (compressChoice :: levels))
    (after : List UInt8) :
    (levels.foldlM (Compckpt.recompress lz)
        (Compckpt.firstLoadSection lz compressChoice linfos ++ after)).bind
      (RiscvCkpt.recoveryFirstLoad lz.level1 zero) =
      if Compckpt.ChainFits lz linfos (compressChoice :: levels) then
        some (writeChunks zero linfos, after)
      else none := by
  induction levels generalizing linfos compressChoice with
  | nil =>
      exact (h.recoveryFirstLoad lz hTags.1 after).trans
        (if_congr (and_iff_left trivial).symm rfl rfl)
  | cons level rest ih =>
      have hRead := h.readFirstLoad lz hTags.1 after
      by_cases hFits : Compckpt.SectionFits lz compressChoice linfos
      · have hFile : Compckpt.recompress lz
            (Compckpt.firstLoadSection lz compressChoice linfos ++ after) level =
            some (Compckpt.firstLoadSection lz level (Compckpt.decoded compressChoice linfos) ++
              after) := by
          rw [Compckpt.recompress, hRead, if_pos hFits, Option.map_some]
        rw [List.foldlM_cons, hFile]
        refine (ih (h.decoded compressChoice) hTags.2).trans ?_
        rw [h.writeChunks_decoded]
        exact if_congr (and_iff_right hFits).symm rfl rfl
      · have hFile : Compckpt.recompress lz
            (Compckpt.firstLoadSection lz compressChoice linfos ++ after) level = none := by
          rw [Compckpt.recompress, hRead, if_neg hFits, Option.map_none]
        rw [List.foldlM_cons, hFile, if_neg fun hBoth => hFits hBoth.1]
        rfl

/-- The chunks of `combine_loads` are such entries, however many bytes were loaded. -/
theorem combineLoads {bytes : List (Nat × UInt8)} (hDistinct : (bytes.map Prod.fst).Nodup)
    (hAddr : ∀ byte ∈ bytes, byte.1 ≠ 0 ∧ byte.1 < 2 ^ 63) :
    ∃ support, EntryList support (CkptInfo.combineLoads [] bytes) := by
  rw [combineLoads_packedBytes]
  have hNodup := packedBytes_nodup hDistinct
  have hLength := packedBytes_length bytes
  have hPlaces : ∀ byte ∈ packedBytes bytes, byte.1 ≠ 0 ∧ byte.1 < 2 ^ 63 := fun byte hb =>
    hAddr byte (packedBytes_subset hb)
  generalize packedBytes bytes = part at *
  have hChunks := combineLoads_chunkList hLength hPlaces
  have hMemory := (combineLoads_memory part hLength hNodup).2
  refine ⟨(part.map Prod.fst).toFinset, hChunks.sized, hChunks.layered, hChunks.nonzero,
    hChunks.below, hChunks.count, ?_, ?_, ?_⟩
  · intro a ha
    by_contra hOut
    apply ha
    apply hMemory
    rintro byte hb rfl
    exact hOut (List.mem_toFinset.mpr (List.mem_map_of_mem hb))
  · rw [List.toFinset_card_of_nodup hNodup, List.length_map]
    exact hLength
  · intro a ha
    obtain ⟨byte, hb, rfl⟩ := List.mem_map.mp (List.mem_toFinset.mp ha)
    exact (hPlaces byte hb).2

end EntryList

section Noise

theorem noise_length (start n : Nat) : (noise start n).length = n * 512 := by
  have hWidth : ∀ page, (noisePage page).length = 512 := fun page => by
    rw [noisePage, List.length_map, List.length_range]
  rw [noise, List.length_flatMap]
  simp only [hWidth, List.map_const', List.sum_replicate_nat, List.length_range']

/-- `combine_loads` makes these chunks, if every byte of them is loaded. -/
theorem combineLoads_noise :
    combineLoads [] (chunkBytes (noise 1 7533)) = noise 1 7533 := by
  have hChunks : ChunkList (noise 1 7533) := noise_chunkList (by decide) (by decide)
  refine combineLoads_chunkBytes hChunks.sized hChunks.spaced (fun chunk hChunk => ?_) ?_
  · obtain ⟨page, -, -, hWord⟩ := mem_noise hChunk
    exact noisePage_word hWord
  · rw [noise_length]
    decide

theorem noise_addresses : ∀ byte ∈ chunkBytes (noise 1 7533), byte.1 ≠ 0 ∧ byte.1 < 2 ^ 63 := by
  intro byte hByte
  obtain ⟨chunk, hChunk, hIn⟩ := List.mem_flatMap.mp hByte
  obtain ⟨k, hk, rfl⟩ := List.mem_map.mp hIn
  have hEight := List.mem_range.mp hk
  obtain ⟨page, hLow, hHigh, hWord⟩ := mem_noise hChunk
  obtain ⟨word, hRow, rfl⟩ := noisePage_addr hWord
  have hFar := @noiseBase_lt 0 page (by omega)
  simp only [noiseBase] at *
  omega

theorem noise_entryList : ∃ support, EntryList support (noise 1 7533) := by
  have hChunks : ChunkList (noise 1 7533) := noise_chunkList (by decide) (by decide)
  rw [← combineLoads_noise]
  exact EntryList.combineLoads (chunkBytes_nodup hChunks.spaced) noise_addresses

end Noise

namespace Compckpt

/-- Changing the level of a section, once or any number of times, leaves the memory that it
restores as it was, and the rest of the file behind it, exactly if no compressed block on the
way, of the section itself or of one that the tool writes, is longer than the buffer of the
readers. -/
theorem recompressed_iff (lz : FastLZLevels) {bytes : List (Nat × UInt8)}
    (hDistinct : (bytes.map Prod.fst).Nodup)
    (hAddr : ∀ byte ∈ bytes, byte.1 ≠ 0 ∧ byte.1 < 2 ^ 63) {level : Fin 4} {levels : List (Fin 4)}
    (hTags : UntaggedChain (combineLoads [] bytes) (level :: levels)) (after : List UInt8) :
    (∃ restored,
      recoveryFirstLoad lz.level1 zero
        (firstLoadSection lz level (combineLoads [] bytes) ++ after) = some restored ∧
      (levels.foldlM (recompress lz)
        (firstLoadSection lz level (combineLoads [] bytes) ++ after)).bind
          (recoveryFirstLoad lz.level1 zero) = some restored) ↔
      ChainFits lz (combineLoads [] bytes) (level :: levels) := by
  obtain ⟨support, hEntries⟩ := EntryList.combineLoads hDistinct hAddr
  rw [hEntries.recovery_chain lz hTags, hEntries.recoveryFirstLoad lz hTags.1]
  constructor
  · rintro ⟨restored, -, hChain⟩
    exact (Option.ite_none_right_eq_some.mp hChain).1
  · intro hFits
    rw [if_pos hFits, if_pos hFits.1]
    exact ⟨_, rfl, rfl⟩

def storeLevels : FastLZLevels := ⟨storeLZ, storeLZ, rfl⟩

def sampleBytes : List (Nat × UInt8) := [(0x12004, 7), (0x11ffe, 3), (0x13001, 0), (0x20000, 9)]

theorem recompressed_sample :
    UntaggedChain (combineLoads [] sampleBytes) [0, 0, 1, 3, 2] ∧
    ∃ restored,
      recoveryFirstLoad storeLevels.level1 zero
        (firstLoadSection storeLevels 0 (combineLoads [] sampleBytes) ++ [42]) = some restored ∧
      ([0, 1, 3, 2].foldlM (recompress storeLevels)
        (firstLoadSection storeLevels 0 (combineLoads [] sampleBytes) ++ [42])).bind
          (recoveryFirstLoad storeLevels.level1 zero) = some restored := by
  have hTags : UntaggedChain (combineLoads [] sampleBytes) [0, 0, 1, 3, 2] :=
    ⟨by decide +kernel, by decide +kernel, nofun, nofun, nofun, trivial⟩
  have hStored : ∀ level linfos, SectionFits storeLevels level linfos := by
    intro level linfos _ block hBlock
    have hRoom := fills_room (by decide) _ (mem_blocks hBlock)
    rw [WriteBuf.FitsReader, FastLZLevels.level, storeLevels, ite_self]
    exact hRoom
  exact ⟨hTags, (recompressed_iff storeLevels (by decide) (by decide) hTags [42]).mpr
    ⟨hStored _ _, hStored _ _, hStored _ _, hStored _ _, hStored _ _, trivial⟩⟩

/-- The first loads of a program that reads 7533 pages of noise: the raw section restores, but
not what the tool makes of it at its default level. -/
theorem recompressed_overruns :
    let lz := Fastlz.fastlzLevels .arch64
    UntaggedChain (combineLoads [] (chunkBytes (noise 1 7533))) [0, gem5Choice] ∧
    recoveryFirstLoad lz.level1 zero
      (firstLoadSection lz 0 (combineLoads [] (chunkBytes (noise 1 7533)))) =
        some (writeChunks zero (noise 1 7533), []) ∧
    (recompress lz (firstLoadSection lz 0 (combineLoads [] (chunkBytes (noise 1 7533))))
      gem5Choice).bind (recoveryFirstLoad lz.level1 zero) = none := by
  intro lz
  obtain ⟨support, hEntries⟩ := noise_entryList
  have hTags : UntaggedChain (noise 1 7533) [0, gem5Choice] := by
    refine ⟨fun _ => ?_, nofun, trivial⟩
    rw [noise_length]
    decide
  have hRaw := hEntries.recoveryFirstLoad lz hTags.1 []
  have hChain := hEntries.recovery_chain lz hTags []
  rw [List.append_nil, if_pos (sectionFits_plain lz (by decide) _)] at hRaw
  rw [List.append_nil, if_neg fun h => Fastlz.noise_overflows .arch64 (h.2.1 (by decide))] at hChain
  rw [combineLoads_noise]
  simp only [List.foldlM_cons, List.foldlM_nil, bind_pure] at hChain
  exact ⟨hTags, hRaw, hChain⟩

end Compckpt

/-- `saveFLoads`: the number of entries, and the entries as they lie in memory. -/
def saveFLoads (firstloads : List FirstLoadInfo) : List UInt8 :=
  wordBytes 8 firstloads.length ++ firstloads.flatMap fun info => wordBytes 8 info.addr ++ info.data

def WordEntries (linfos : List FirstLoadInfo) : Prop :=
  ∀ info ∈ linfos, info.addr < 2 ^ 64 ∧ info.data.length = 8

/-- Both readers find exactly the list in what either writer makes of it, and stop at its end. -/
def RawRoundTrip (lz : FastLZLevels) (linfos : List FirstLoadInfo) : Prop :=
  ∀ saved ∈ [saveFLoads linfos, Compckpt.firstLoadSection lz 0 linfos],
    ∀ (m : Memory) (after : List UInt8), readFirstLoad lz.level1 (saved ++ after) =
      some (linfos, after) ∧
    recoveryFirstLoad lz.level1 m (saved ++ after) = some (writeChunks m linfos, after)

section RawSection

variable (lz : FastLZLevels) {linfos : List FirstLoadInfo}

/-- The two writers write the same bytes. -/
theorem saveFLoads_eq (h : WordEntries linfos) :
    saveFLoads linfos = Compckpt.firstLoadSection lz 0 linfos := by
  rw [saveFLoads, Compckpt.firstLoadSection, if_pos rfl]
  congr 1
  refine List.flatMap_congr fun info hInfo => ?_
  rw [Compckpt.loadRecord, ← (h info hInfo).2, wordBytes_wordValue]

/-- It is enough to look at what the tools read from a level-0 section. -/
theorem rawRoundTrip_of_read (h : WordEntries linfos)
    (hRead : ∀ after, readFirstLoad lz.level1 (Compckpt.firstLoadSection lz 0 linfos ++ after) =
      some (linfos, after)) : RawRoundTrip lz linfos := by
  intro saved hSaved m after
  have hBytes : saved = Compckpt.firstLoadSection lz 0 linfos := by
    simp only [List.mem_cons, List.not_mem_nil, or_false] at hSaved
    rcases hSaved with rfl | rfl
    · exact saveFLoads_eq lz h
    · rfl
  rw [recoveryFirstLoad_eq, hBytes, hRead]
  exact ⟨rfl, rfl⟩

/-- A list whose length is no tag is read back. -/
theorem rawRoundTrip_untagged (h : WordEntries linfos) (hCount : linfos.length < 2 ^ 31)
    (hTag : Compckpt.Untagged 0 linfos) : RawRoundTrip lz linfos := by
  refine rawRoundTrip_of_read lz h fun after => ?_
  have hTag := hTag rfl
  simp only [List.mem_cons, List.not_mem_nil, or_false, not_or] at hTag
  have hPairs := Compckpt.readNocomp_pairs (fun info hc => (h info hc).2)
    (fun info hc => (h info hc).1) (by omega) after
  rw [readFirstLoad, Compckpt.firstLoadSection_count lz (by omega), if_neg (by omega),
    if_neg (by omega), Compckpt.firstLoadSection, if_pos rfl, hPairs]

/-- A level-0 section begins with the number of entries and the first address. -/
theorem firstLoadSection_cons (first : FirstLoadInfo) (rest : List FirstLoadInfo) :
    Compckpt.firstLoadSection lz 0 (first :: rest) = wordBytes 8 (first :: rest).length ++
      (wordBytes 8 first.addr ++
        (wordBytes 8 (wordValue first.data) ++ rest.flatMap Compckpt.loadRecord)) := by
  rw [Compckpt.firstLoadSection, if_pos rfl, List.flatMap_cons, Compckpt.loadRecord]
  simp only [List.append_assoc]

/-- With a tag for its length, a list that begins at address zero ends before it begins. -/
theorem readFirstLoad_zero_address {first : FirstLoadInfo} {rest : List FirstLoadInfo}
    (hZero : first.addr = 0) (hTag : (first :: rest).length ∈ [0x123457, 0x123458, 0x123459]) :
    ∃ after, readFirstLoad lz.level1 (Compckpt.firstLoadSection lz 0 (first :: rest)) =
      some ([], after) := by
  simp only [List.mem_cons, List.not_mem_nil, or_false] at hTag
  have hCount := Compckpt.firstLoadSection_count lz (by omega : (first :: rest).length < 2 ^ 64) []
  rw [List.append_nil] at hCount
  have hFile := firstLoadSection_cons lz first rest
  generalize Compckpt.firstLoadSection lz 0 (first :: rest) = file at *
  have hBehind : file.drop 8 = wordBytes 8 first.addr ++ _ :=
    hFile ▸ List.drop_left' (wordBytes_length 8 _)
  have hAddr : wordAt 8 (file.drop 8) 0 = 0 :=
    wordAt_of_drop (by rw [List.drop_zero, hBehind, hZero]) (by decide)
  have hLength : file.length ≠ 0 := by
    rw [hFile, List.length_append, wordBytes_length]
    omega
  rw [readFirstLoad, hCount]
  split
  · obtain ⟨fuel, hFuel⟩ := Nat.exists_eq_succ_of_ne_zero hLength
    rw [hFuel, readDatamap, hAddr, if_pos rfl]
    exact ⟨_, rfl⟩
  · rw [if_pos (by omega), readFastlz, dif_pos hAddr]
    exact ⟨_, rfl⟩

/-- The data map format takes a small word for the size of a page without a map. -/
theorem readDatamap_smallWords (hEntries : WordEntries linfos)
    (hSmall : ∀ info ∈ linfos, info.addr ≠ 0 ∧ wordValue info.data < 64) (fuel : Nat)
    (after : List UInt8) :
    readDatamap (linfos.flatMap Compckpt.loadRecord ++ after) (linfos.length + fuel) =
      readDatamap after fuel := by
  induction linfos with
  | nil => rw [List.flatMap_nil, List.nil_append, List.length_nil, Nat.zero_add]
  | cons info rest ih =>
      obtain ⟨hInfo, hRest⟩ := List.forall_mem_cons.mp hSmall
      obtain ⟨hWord, hWords⟩ := List.forall_mem_cons.mp hEntries
      generalize hFile : (info :: rest).flatMap Compckpt.loadRecord ++ after = file
      have hAddr : file.drop 0 = wordBytes 8 info.addr ++ (wordBytes 8 (wordValue info.data) ++
          (rest.flatMap Compckpt.loadRecord ++ after)) := by
        rw [List.drop_zero, ← hFile, List.flatMap_cons, Compckpt.loadRecord]
        simp only [List.append_assoc]
      have hData : file.drop 8 = _ := drop_past hAddr (wordBytes_length 8 _)
      have hBehind : (file.drop 8).drop 8 = rest.flatMap Compckpt.loadRecord ++ after := by
        rw [hData, List.drop_left' (wordBytes_length 8 _)]
      have hSize : wordAt 8 (file.drop 8) 0 = wordValue info.data :=
        wordAt_of_drop (by rw [List.drop_zero, hData]) (by omega)
      have hPage : readPage info.addr (file.drop 8) =
          ([], rest.flatMap Compckpt.loadRecord ++ after) := by
        rw [readPage, hSize, Nat.div_eq_of_lt hInfo.2, List.take_zero, Nat.add_zero, hBehind]
        rfl
      rw [List.length_cons, Nat.add_right_comm, readDatamap, wordAt_of_drop hAddr (by omega),
        if_neg hInfo.1, hPage]
      simp only [ih hWords hRest, List.nil_append]

/-- So a list of such words is read as nothing if its length is the tag of that format. -/
theorem readFirstLoad_smallWords (hEntries : WordEntries linfos)
    (hSmall : ∀ info ∈ linfos, info.addr ≠ 0 ∧ wordValue info.data < 64)
    (hTag : linfos.length = 0x123457) :
    readFirstLoad lz.level1 (saveFLoads linfos) = some ([], []) := by
  have hCount := Compckpt.firstLoadSection_count lz (by omega : linfos.length < 2 ^ 64) []
  rw [List.append_nil, ← saveFLoads_eq lz hEntries, hTag] at hCount
  have hFile : saveFLoads linfos = wordBytes 8 linfos.length ++
      linfos.flatMap Compckpt.loadRecord := by
    rw [saveFLoads_eq lz hEntries, Compckpt.firstLoadSection, if_pos rfl]
  have hBehind : (saveFLoads linfos).drop 8 = linfos.flatMap Compckpt.loadRecord ++ [] := by
    rw [hFile, List.drop_left' (wordBytes_length 8 _), List.append_nil]
  obtain ⟨fuel, hFuel⟩ : ∃ fuel, (saveFLoads linfos).length = linfos.length + (fuel + 1) := by
    refine ⟨7 + 15 * linfos.length, ?_⟩
    rw [hFile, List.length_append, wordBytes_length,
      length_flatMap_of_width Compckpt.loadRecord_length linfos]
    omega
  have hEnd : readDatamap [] (fuel + 1) = ([], []) := rfl
  simp only [readFirstLoad, hCount, hBehind, hFuel, readDatamap_smallWords hEntries hSmall,
    hEnd, if_true]

end RawSection

/-- Exactly the lengths that are no tags are safe: every list of such a length is read back
from what `saveFLoads` and level 0 of the tool write, and of any other length some list is not. -/
theorem rawRoundTrip_iff (lz : FastLZLevels) (n : Nat) (hCount : n < 2 ^ 31) :
    (∀ linfos, linfos.length = n → WordEntries linfos → RawRoundTrip lz linfos) ↔
      n ∉ [0x123457, 0x123458, 0x123459] := by
  constructor
  · intro h hTag
    obtain ⟨k, rfl⟩ : ∃ k, n = k + 1 := by
      refine Nat.exists_eq_succ_of_ne_zero ?_
      rintro rfl
      simp at hTag
    let entry : FirstLoadInfo := ⟨0, [0, 0, 0, 0, 0, 0, 0, 0]⟩
    have hLength : (entry :: List.replicate k entry).length = k + 1 := by
      rw [List.length_cons, List.length_replicate]
    have hEntries : WordEntries (entry :: List.replicate k entry) := by
      intro info hInfo
      rw [← List.replicate_succ] at hInfo
      rw [List.eq_of_mem_replicate hInfo]
      decide
    have hTrip := h _ hLength hEntries _ (List.mem_cons_of_mem _ (List.mem_cons_self ..)) zero []
    have hRead := hTrip.1
    have hTag : (entry :: List.replicate k entry).length ∈ [0x123457, 0x123458, 0x123459] := by
      rwa [hLength]
    obtain ⟨after, hZero⟩ := readFirstLoad_zero_address lz rfl hTag
    rw [List.append_nil, hZero, Option.some.injEq] at hRead
    exact absurd (congrArg Prod.fst hRead) (List.cons_ne_nil _ _).symm
  · intro hTag linfos hLength hEntries
    exact rawRoundTrip_untagged lz hEntries (hLength ▸ hCount) fun _ => hLength ▸ hTag

theorem rawRoundTrip_iff_sample :
    WordEntries sampleChunks ∧ RawRoundTrip Compckpt.storeLevels sampleChunks := by
  have hEntries : WordEntries sampleChunks := by
    unfold WordEntries
    decide
  exact ⟨hEntries, (rawRoundTrip_iff Compckpt.storeLevels 3 (by decide)).mpr
    (by decide) sampleChunks rfl hEntries⟩

def onesArray (n : Nat) : List FirstLoadInfo :=
  (List.range' 0x2000 n).map fun word => ⟨8 * word, [1, 0, 0, 0, 0, 0, 0, 0]⟩

/-- The number of words of this array is the tag of the data map format: nothing is restored. -/
theorem rawSection_misread :
    WordEntries (onesArray 0x123457) ∧ (onesArray 0x123457).length < 2 ^ 31 ∧
    readFirstLoad storeLZ (saveFLoads (onesArray 0x123457)) = some ([], []) ∧
    ¬ RawRoundTrip Compckpt.storeLevels (onesArray 0x123457) := by
  have hLength : (onesArray 0x123457).length = 0x123457 := by
    rw [onesArray, List.length_map, List.length_range']
  have hEntries : WordEntries (onesArray 0x123457) := by
    intro info hInfo
    obtain ⟨word, hWord, rfl⟩ := List.mem_map.mp hInfo
    have hHigh := (List.mem_range'_1.mp hWord).2
    exact ⟨by simp only; omega, rfl⟩
  have hSmall : ∀ info ∈ onesArray 0x123457, info.addr ≠ 0 ∧ wordValue info.data < 64 := by
    intro info hInfo
    obtain ⟨word, hWord, rfl⟩ := List.mem_map.mp hInfo
    have hLow := (List.mem_range'_1.mp hWord).1
    exact ⟨by simp only; omega, (by decide : wordValue [1, 0, 0, 0, 0, 0, 0, 0] < 64)⟩
  have hRead := readFirstLoad_smallWords Compckpt.storeLevels hEntries hSmall hLength
  refine ⟨hEntries, by omega, hRead, fun hTrip => ?_⟩
  have hOnes := (hTrip _ (List.mem_cons_self ..) zero []).1
  rw [List.append_nil, hRead, Option.some.injEq] at hOnes
  have hNone := congrArg (fun read => read.1.length) hOnes
  simp only [List.length_nil] at hNone
  omega

end RiscvCkpt

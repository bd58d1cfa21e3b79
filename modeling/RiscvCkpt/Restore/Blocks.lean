import RiscvCkpt.Restore.ReadFirstLoads

/-! The blocks of the compressed first-load section. `compress_write` collects page records
in a global buffer and hands it to FastLZ when it is full or the list is over. Writer and
reader have buffers of the same size for a block; only the writer has one of twice the size
for what FastLZ makes of it. -/
namespace RiscvCkpt

open ByteCodec ByteMemory CkptInfo

/-- The buffer as each call of `compress_write` fills it, and whether the block is written
then. The flag `end` is set for the last page of the list. -/
def fills (buf : WriteBuf) : List SavedPage → List (WriteBuf × Bool)
  | [] => []
  | page :: rest =>
      let full : WriteBuf := ⟨buf.tempdata ++ page.record, buf.infonum + 1⟩
      if full.tempdata.length < MaxCompressSize ∧ rest ≠ [] then (full, false) :: fills full rest
      else (full, true) :: fills WriteBuf.empty rest

/-- The blocks that `saveFLoads_comp` hands to FastLZ. -/
def blocks (linfos : List FirstLoadInfo) : List WriteBuf :=
  ((fills WriteBuf.empty (savedPages 0 linfos)).filter fun fill => fill.2).map fun fill => fill.1

/-- A block in the file, behind its two words. -/
def WriteBuf.frame (fastlz : FastLZ) (block : WriteBuf) : List UInt8 :=
  wordBytes 8 (fastlz.compress block.tempdata).length ++
    (wordBytes 8 block.infonum ++ fastlz.compress block.tempdata)

/-- What FastLZ makes of the block fits `compdata` of the readers. -/
def WriteBuf.FitsReader (fastlz : FastLZ) (block : WriteBuf) : Prop :=
  (fastlz.compress block.tempdata).length ≤ MaxCompressSize + ExtraDataSize

instance (fastlz : FastLZ) : DecidablePred (WriteBuf.FitsReader fastlz) := fun _ =>
  inferInstanceAs (Decidable (_ ≤ _))

/-- The readers have room for every compressed block of the list. -/
def BlocksFit (fastlz : FastLZ) (linfos : List FirstLoadInfo) : Prop :=
  ∀ block ∈ blocks linfos, block.FitsReader fastlz

instance (fastlz : FastLZ) (linfos : List FirstLoadInfo) : Decidable (BlocksFit fastlz linfos) :=
  inferInstanceAs (Decidable (∀ block ∈ blocks linfos, block.FitsReader fastlz))

/-- The buffer holds the records of the pages. -/
def WriteBuf.Holds (buf : WriteBuf) (pages : List SavedPage) : Prop :=
  buf.tempdata = pages.flatMap SavedPage.record ∧ buf.infonum = pages.length

section Fills

variable {buf : WriteBuf} {pend pages : List SavedPage}

/-- A page record that is appended joins the pages of the buffer. -/
theorem WriteBuf.Holds.push (h : buf.Holds pend) (page : SavedPage) :
    WriteBuf.Holds ⟨buf.tempdata ++ page.record, buf.infonum + 1⟩ (pend ++ [page]) := by
  obtain ⟨hData, hNum⟩ := h
  constructor
  · rw [List.flatMap_append, List.flatMap_singleton, hData]
  · rw [List.length_append, hNum, List.length_singleton]

theorem WriteBuf.holds_empty : WriteBuf.empty.Holds [] := ⟨rfl, rfl⟩

/-- A page record fits the room behind a buffer that is not full. -/
theorem fills_room (hRoom : buf.tempdata.length < MaxCompressSize) :
    ∀ fill ∈ fills buf pages, fill.1.tempdata.length ≤ MaxCompressSize + ExtraDataSize := by
  induction pages generalizing buf with
  | nil => exact fun fill hFill => absurd hFill List.not_mem_nil
  | cons page rest ih =>
      have hRecord : page.record.length ≤ ExtraDataSize := (pageRecord_length page.base page.map).2
      have hHere : (buf.tempdata ++ page.record).length ≤ MaxCompressSize + ExtraDataSize := by
        rw [List.length_append]
        omega
      rw [fills]
      split
      · next hWait => exact List.forall_mem_cons.mpr ⟨hHere, ih hWait.1⟩
      · exact List.forall_mem_cons.mpr ⟨hHere, ih (by decide)⟩

/-- Every call of `compress_write` puts a record behind what the buffer holds. -/
theorem fills_pushed {fill : WriteBuf × Bool} (h : fill ∈ fills buf pages) :
    ∃ (before : WriteBuf) (page : SavedPage), fill.1.tempdata = before.tempdata ++ page.record := by
  induction pages generalizing buf with
  | nil => exact absurd h List.not_mem_nil
  | cons page rest ih =>
      rw [fills] at h
      split at h
      · rcases List.mem_cons.mp h with rfl | hLater
        · exact ⟨buf, page, rfl⟩
        · exact ih hLater
      · rcases List.mem_cons.mp h with rfl | hLater
        · exact ⟨buf, page, rfl⟩
        · exact ih hLater

/-- What is handed to FastLZ is not empty and not larger than the buffer. -/
theorem written_block {linfos : List FirstLoadInfo} {block : WriteBuf}
    (h : (block, true) ∈ fills WriteBuf.empty (savedPages 0 linfos)) :
    block.tempdata ≠ [] ∧ block.tempdata.length ≤ MaxCompressSize + ExtraDataSize := by
  refine ⟨?_, fills_room (by decide) _ h⟩
  obtain ⟨buf, page, hData⟩ := fills_pushed h
  rw [hData, Ne, ← List.length_eq_zero_iff, List.length_append, SavedPage.record]
  have hRecord := (pageRecord_length page.base page.map).1
  omega

/-- Whatever the buffer is filled to, it holds successive pages and counts them. -/
theorem fills_holds (h : buf.Holds pend) :
    ∀ fill ∈ fills buf pages, ∃ held, held <:+: pend ++ pages ∧ fill.1.Holds held := by
  induction pages generalizing buf pend with
  | nil => exact fun fill hFill => absurd hFill List.not_mem_nil
  | cons page rest ih =>
      have hPush := h.push page
      have hAll : pend ++ page :: rest = (pend ++ [page]) ++ rest := by simp
      have hHere : ∃ held, held <:+: pend ++ page :: rest ∧
          WriteBuf.Holds ⟨buf.tempdata ++ page.record, buf.infonum + 1⟩ held :=
        ⟨pend ++ [page], hAll ▸ (List.prefix_append _ _).isInfix, hPush⟩
      rw [fills]
      split
      · refine List.forall_mem_cons.mpr ⟨hHere, ?_⟩
        rw [hAll]
        exact ih hPush
      · refine List.forall_mem_cons.mpr ⟨hHere, fun fill hFill => ?_⟩
        obtain ⟨held, hHeld, hHolds⟩ := ih WriteBuf.holds_empty fill hFill
        refine ⟨held, ?_, hHolds⟩
        rw [hAll]
        exact hHeld.trans (List.suffix_append _ _).isInfix

/-- The blocks of a list of pages and the terminator, under the reader's loop: it gets
through if every block fits its buffer. `pend` are the pages that wait in the buffer of the
writer. -/
theorem readFastlz_fills (fastlz : FastLZ) (h : buf.Holds pend)
    (hRoom : buf.tempdata.length < MaxCompressSize) (hPend : pages = [] → pend = [])
    (hValid : ∀ page ∈ pend ++ pages, page.Valid) (hCount : (pend ++ pages).length < 2 ^ 64)
    (after : List UInt8) :
    readFastlz fastlz
      ((((fills buf pages).filter fun fill => fill.2).map fun fill => fill.1).flatMap
        (WriteBuf.frame fastlz) ++ (wordBytes 8 0 ++ after)) =
      if ∀ block ∈ ((fills buf pages).filter fun fill => fill.2).map fun fill => fill.1,
          block.FitsReader fastlz then
        some ((pend ++ pages).flatMap SavedPage.entries, after)
      else none := by
  induction pages generalizing buf pend with
  | nil =>
      have hEnd : (wordBytes 8 0 ++ after).drop 0 = wordBytes 8 0 ++ after := rfl
      rw [fills, hPend rfl, List.filter_nil, List.map_nil, List.flatMap_nil, List.nil_append,
        readFastlz, dif_pos (wordAt_of_drop hEnd (by decide)),
        List.drop_left' (wordBytes_length 8 0), if_pos fun _ h => absurd h List.not_mem_nil]
      rfl
  | cons page rest ih =>
      have hPush := h.push page
      have hAll : pend ++ page :: rest = (pend ++ [page]) ++ rest := by simp
      rw [hAll] at hValid hCount ⊢
      rw [fills]
      split
      · -- the page waits in the buffer
        next hWait => exact ih hPush hWait.1 (fun hNone => absurd hNone hWait.2) hValid hCount
      · -- the block is written, and the buffer is empty again
        have hRest := ih WriteBuf.holds_empty (by decide) (fun _ => rfl)
          (fun p hp => hValid p (List.mem_append_right _ hp))
          (Nat.lt_of_le_of_lt (List.suffix_append _ _).length_le hCount)
        have hRecord := pageRecord_length page.base page.map
        obtain ⟨hData, hNum⟩ := hPush
        have hFits : (buf.tempdata ++ page.record).length ≤ MaxCompressSize + ExtraDataSize := by
          rw [List.length_append, SavedPage.record]
          omega
        have hBlock : buf.tempdata ++ page.record ≠ [] := by
          rw [Ne, ← List.length_eq_zero_iff, List.length_append, SavedPage.record]
          omega
        simp only at hData hNum
        rw [hData] at hFits hBlock
        have hHere := fun tail => @readFastlz_block fastlz (pend ++ [page]) tail
          (fun p hp => hValid p (List.mem_append_left _ hp)) hFits hBlock
          (Nat.lt_of_le_of_lt (List.prefix_append _ _).length_le hCount)
        rw [List.filter_cons_of_pos rfl, List.map_cons, List.flatMap_cons, List.append_assoc,
          WriteBuf.frame, hData, hNum, hHere, hRest, List.nil_append]
        rw [if_congr List.forall_mem_cons rfl rfl, ite_and]
        refine if_congr Iff.rfl ?_ rfl
        rw [apply_ite (Option.map _), Option.map_some, Option.map_none, ← List.flatMap_append]

/-- What the calls write, and the buffer behind them. The last page of a list always goes out. -/
theorem savePages_fills (fastlz : FastLZ) (i : Nat) (buf : WriteBuf) (linfos : List FirstLoadInfo) :
    savePages fastlz i buf linfos =
      ((((fills buf (savedPages i linfos)).filter fun fill => fill.2).map fun fill =>
        fill.1).flatMap
          (WriteBuf.frame fastlz),
        if linfos = [] then buf else WriteBuf.empty) := by
  induction i, linfos using savedPages.induct generalizing buf with
  | case1 i =>
      rw [savePages, savedPages]
      rfl
  | case2 i first rest chunks =>
      rename_i ih
      have hChunks : first :: rest.takeWhile (inPage first.addr) = chunks := rfl
      clear_value chunks
      rw [savePages, savedPages, fills, if_neg (List.cons_ne_nil first rest)]
      simp only [hChunks]
      generalize rest.dropWhile (inPage first.addr) = later at *
      have hData : (pageWords first.addr (coverPage i first.addr chunks)).flatMap (wordBytes 8) =
          SavedPage.record ⟨first.addr, coverPage i first.addr chunks⟩ := rfl
      have hLast : savedPages (i + chunks.length) later ≠ [] ↔ later.isEmpty = false := by
        cases later with
        | nil => simp [savedPages]
        | cons chunk others => simp [savedPages]
      simp only [compressWrite, hData, hLast]
      generalize SavedPage.record ⟨first.addr, coverPage i first.addr chunks⟩ = record
      by_cases hWait : (buf.tempdata ++ record).length < MaxCompressSize ∧ later.isEmpty = false
      · have hMore : later ≠ [] := fun hNone => absurd hWait.2 (by simp [hNone])
        simp only [if_pos hWait, ih, if_neg hMore, List.nil_append, List.filter_cons,
          Bool.false_eq_true, if_false]
      · simp only [if_neg hWait, ih, List.filter_cons, if_true, List.map_cons,
          List.flatMap_cons, ite_self]
        rfl

end Fills

/-- Every page takes a chunk of its own. -/
theorem savedPages_length_le (i : Nat) (linfos : List FirstLoadInfo) :
    (savedPages i linfos).length ≤ linfos.length := by
  induction i, linfos using savedPages.induct with
  | case1 i =>
      rw [savedPages]
      exact Nat.le_refl 0
  | case2 i first rest chunks ih =>
      rw [savedPages, List.length_cons, List.length_cons]
      exact Nat.succ_le_succ (Nat.le_trans ih (List.dropWhile_sublist _).length_le)

/-- The loop of the writer, followed by the terminator, under the reader's loop. -/
theorem readFastlz_savePages (fastlz : FastLZ) {linfos : List FirstLoadInfo}
    (hAddr : Addressable linfos) (hCount : linfos.length < 2 ^ 64) (after : List UInt8) :
    readFastlz fastlz ((savePages fastlz 0 WriteBuf.empty linfos).1 ++ (wordBytes 8 0 ++ after)) =
      if BlocksFit fastlz linfos then
        some ((savedPages 0 linfos).flatMap SavedPage.entries, after)
      else none := by
  rw [savePages_fills]
  exact readFastlz_fills fastlz WriteBuf.holds_empty (by decide) (fun _ => rfl)
    (savedPages_valid hAddr) (Nat.lt_of_le_of_lt (savedPages_length_le 0 linfos) hCount) after

/-- The section of `saveFLoads_comp` is read up to its end if its blocks fit. -/
theorem readFirstLoad_saveFLoadsComp (fastlz : FastLZ) {linfos : List FirstLoadInfo}
    (hAddr : Addressable linfos) (hCount : linfos.length < 2 ^ 64) (after : List UInt8) :
    readFirstLoad fastlz ((saveFLoadsComp fastlz WriteBuf.empty linfos).1 ++ after) =
      if BlocksFit fastlz linfos then
        some ((savedPages 0 linfos).flatMap SavedPage.entries, after)
      else none := by
  generalize hFile : (saveFLoadsComp fastlz WriteBuf.empty linfos).1 ++ after = file
  have hDrop : file.drop 0 = wordBytes 8 compTag ++
      ((savePages fastlz 0 WriteBuf.empty linfos).1 ++ (wordBytes 8 0 ++ after)) := by
    simp only [← hFile, saveFLoadsComp, List.drop_zero, List.append_assoc]
  have hBehind : file.drop 8 = _ := drop_past hDrop (wordBytes_length 8 _)
  rw [readFirstLoad, wordAt_of_drop hDrop (by decide), if_neg (by decide),
    if_pos (by decide), hBehind]
  exact readFastlz_savePages fastlz hAddr hCount after

/-- The outputs of successive calls of `saveFLoads_comp`, each with the buffer it leaves. -/
def saveAll (fastlz : FastLZ) (buf : WriteBuf) :
    List (List FirstLoadInfo) → List (List UInt8 × WriteBuf)
  | [] => []
  | linfos :: rest =>
      let saved := saveFLoadsComp fastlz buf linfos
      saved :: saveAll fastlz saved.2 rest

/-- The call writes its own list and nothing else: the blocks of the list, each with the
number of its page records, from an empty buffer to an empty buffer and within its size. -/
structure Framed (fastlz : FastLZ) (linfos : List FirstLoadInfo) (saved : List UInt8 × WriteBuf) :
    Prop where
  own : saved.1 = wordBytes 8 compTag ++
      ((blocks linfos).flatMap (WriteBuf.frame fastlz) ++ wordBytes 8 0)
  empty : saved.2.tempdata.length = 0 ∧ saved.2.infonum = 0
  room : ∀ fill ∈ fills WriteBuf.empty (savedPages 0 linfos),
    fill.1.tempdata.length ≤ MaxCompressSize + ExtraDataSize
  counts : ∀ block ∈ blocks linfos, ∃ pages, pages <:+: savedPages 0 linfos ∧
    block.tempdata = pages.flatMap SavedPage.record ∧ block.infonum = pages.length

theorem mem_blocks {linfos : List FirstLoadInfo} {block : WriteBuf} (h : block ∈ blocks linfos) :
    (block, true) ∈ fills WriteBuf.empty (savedPages 0 linfos) := by
  obtain ⟨fill, hFill, rfl⟩ := List.mem_map.mp h
  obtain ⟨hMem, hWritten⟩ := List.mem_filter.mp hFill
  rwa [← hWritten]

/-- `saveFLoads_comp` writes a framed block for each fill of its buffer and leaves it empty. -/
theorem saveFLoadsComp_framed (fastlz : FastLZ) (linfos : List FirstLoadInfo) :
    (saveFLoadsComp fastlz WriteBuf.empty linfos).2 = WriteBuf.empty ∧
      Framed fastlz linfos (saveFLoadsComp fastlz WriteBuf.empty linfos) := by
  have hBuf : (saveFLoadsComp fastlz WriteBuf.empty linfos).2 = WriteBuf.empty := by
    simp only [saveFLoadsComp, savePages_fills, ite_self]
  refine ⟨hBuf, ?_, ?_, fills_room (by decide), fun block hBlock => ?_⟩
  · simp only [saveFLoadsComp, savePages_fills]
    rfl
  · rw [hBuf]
    exact ⟨rfl, rfl⟩
  · exact fills_holds WriteBuf.holds_empty _ (mem_blocks hBlock)

/-- However many checkpoints a simulation saves, each section is made of its own list, the
buffer is empty between the calls and never overruns, and every block counts its records. -/
theorem saveAll_framed (fastlz : FastLZ) (lists : List (List FirstLoadInfo)) :
    List.Forall₂ (Framed fastlz) lists (saveAll fastlz WriteBuf.empty lists) := by
  induction lists with
  | nil => exact List.Forall₂.nil
  | cons linfos rest ih =>
      obtain ⟨hBuf, hFramed⟩ := saveFLoadsComp_framed fastlz linfos
      rw [saveAll]
      refine List.Forall₂.cons hFramed ?_
      rw [hBuf]
      exact ih

/-- What the contract of `fastlz_compress_level` allows for an input of `length` bytes: the
output may be 5% larger than the input, and 66 bytes in any case. -/
def FastLZAllows (length compsize : Nat) : Prop := 100 * compsize ≤ 105 * length ∨ compsize ≤ 66

/-- `recovery_fastlz` has room for every block: `rawdata` and `compdata` are both of
`MaxCompressSize + ExtraDataSize` bytes. -/
def FitsReader (linfos : List FirstLoadInfo) : Prop :=
  ∀ block ∈ blocks linfos, block.tempdata.length ≤ MaxCompressSize + ExtraDataSize ∧
    ∀ compsize, FastLZAllows block.tempdata.length compsize →
      compsize ≤ MaxCompressSize + ExtraDataSize

def recordBytes (linfos : List FirstLoadInfo) : Nat :=
  ((savedPages 0 linfos).flatMap SavedPage.record).length

/-- No block is larger than all records together. -/
theorem blocks_length_le {linfos : List FirstLoadInfo} {block : WriteBuf}
    (h : block ∈ blocks linfos) :
    block.tempdata.length ≤ recordBytes linfos := by
  obtain ⟨held, ⟨before, after, hHeld⟩, hData, -⟩ :=
    fills_holds WriteBuf.holds_empty _ (mem_blocks h)
  rw [List.nil_append] at hHeld
  rw [recordBytes, ← hHeld, List.flatMap_append, List.flatMap_append, hData]
  simp only [List.length_append]
  omega

/-- The first block takes all records or is full. -/
theorem fills_first {buf : WriteBuf} {pend pages : List SavedPage} (h : buf.Holds pend)
    (hPages : pages ≠ []) :
    ∃ block, (block, true) ∈ fills buf pages ∧
      min MaxCompressSize ((pend ++ pages).flatMap SavedPage.record).length ≤
        block.tempdata.length := by
  induction pages generalizing buf pend with
  | nil => exact absurd rfl hPages
  | cons page rest ih =>
      have hPush := h.push page
      have hAll : pend ++ page :: rest = (pend ++ [page]) ++ rest := by simp
      rw [fills, hAll]
      split
      · next hWait =>
        obtain ⟨block, hBlock, hSize⟩ := ih hPush hWait.2
        exact ⟨block, List.mem_cons_of_mem _ hBlock, hSize⟩
      · next hWrite =>
        refine ⟨_, List.mem_cons_self .., ?_⟩
        by_cases hRest : rest = []
        · rw [hRest, List.append_nil, ← hPush.1]
          exact Nat.min_le_right _ _
        · have hFull := Nat.not_lt.mp fun hLt => hWrite ⟨hLt, hRest⟩
          exact Nat.le_trans (Nat.min_le_left _ _) hFull

/-- Pages that fill the buffer with the last of them at the earliest are one block. -/
theorem fills_single {buf : WriteBuf} {pages : List SavedPage} (hPages : pages ≠ [])
    (hShort : buf.tempdata.length + (pages.dropLast.flatMap SavedPage.record).length <
      MaxCompressSize) :
    ((fills buf pages).filter fun fill => fill.2).map (fun fill => fill.1) =
      [⟨buf.tempdata ++ pages.flatMap SavedPage.record, buf.infonum + pages.length⟩] := by
  induction pages generalizing buf with
  | nil => exact absurd rfl hPages
  | cons page rest ih =>
      by_cases hRest : rest = []
      · subst hRest
        rw [fills, if_neg fun h => h.2 rfl, List.flatMap_singleton]
        rfl
      · rw [List.dropLast_cons_of_ne_nil hRest, List.flatMap_cons, List.length_append] at hShort
        have hWait : (buf.tempdata ++ page.record).length < MaxCompressSize ∧ rest ≠ [] := by
          rw [List.length_append]
          exact ⟨by omega, hRest⟩
        have hLater := @ih ⟨buf.tempdata ++ page.record, buf.infonum + 1⟩ hRest (by
          simp only [List.length_append]
          omega)
        rw [fills, if_pos hWait, List.filter_cons_of_neg Bool.false_ne_true, hLater,
          List.flatMap_cons, List.append_assoc, List.length_cons, Nat.add_assoc, Nat.add_comm 1]

/-- FastLZ may make a block too large if there is more than that. -/
theorem FitsReader.recordBytes_le {linfos : List FirstLoadInfo} (h : FitsReader linfos) :
    105 * recordBytes linfos / 100 ≤ MaxCompressSize + ExtraDataSize := by
  by_cases hNone : savedPages 0 linfos = []
  · simp [recordBytes, hNone]
  · obtain ⟨block, hBlock, hSize⟩ := fills_first WriteBuf.holds_empty hNone
    have hMem : block ∈ blocks linfos :=
      List.mem_map.mpr ⟨(block, true), List.mem_filter.mpr ⟨hBlock, rfl⟩, rfl⟩
    have hRoom := (h block hMem).2 (105 * block.tempdata.length / 100) (Or.inl (Nat.mul_div_le _ _))
    rw [List.nil_append, ← recordBytes] at hSize
    simp only [MaxCompressSize, ExtraDataSize] at *
    omega

/-- The reader has room for whatever FastLZ may make of the blocks if and only if all page
records together, grown by 5%, fit its buffer: then they are one block. -/
theorem fitsReader_iff (linfos : List FirstLoadInfo) :
    FitsReader linfos ↔ 105 * recordBytes linfos / 100 ≤ MaxCompressSize + ExtraDataSize := by
  constructor
  · exact FitsReader.recordBytes_le
  · intro h block hBlock
    have hLength := blocks_length_le hBlock
    refine ⟨fills_room (by decide) _ (mem_blocks hBlock), fun compsize hAllowed => ?_⟩
    simp only [FastLZAllows, MaxCompressSize, ExtraDataSize] at *
    omega

/-- Bytes without repetition: pairs of a byte above and one below 128 that count, so that any
three bytes in a row tell where they stand among 32768. -/
def noiseByte (i : Nat) : UInt8 :=
  UInt8.ofNat (if i % 2 = 0 then 128 + i / 256 % 128 else i / 2 % 128)

/-- Where the pages of an incompressible program lie. All bytes of these addresses are below
128. -/
def noiseBase (page : Nat) : Nat := 65536 * (page % 128 + 256 * (page / 128))

def noisePage (page : Nat) : List FirstLoadInfo :=
  (List.range 512).map fun word =>
    ⟨noiseBase page + 8 * word, load noiseByte (4096 * page + 8 * word) 8⟩

/-- The first loads of a program that reads `n` such pages from the `start`-th on. -/
def noise (start n : Nat) : List FirstLoadInfo := (List.range' start n).flatMap noisePage

def noiseRecord (page : Nat) : List UInt8 :=
  wordBytes 8 (noiseBase page) ++ (wordBytes 8 MaxCoverSize ++
    (List.replicate 64 255 ++ load noiseByte (4096 * page) 4096))

section Noise

theorem noiseRecord_length (page : Nat) : (noiseRecord page).length = 4176 := by
  simp only [noiseRecord, List.length_append, wordBytes_length, List.length_replicate, load_length]

theorem noiseBase_lt {page page' : Nat} (h : page < page') :
    noiseBase page + 65536 ≤ noiseBase page' := by
  simp only [noiseBase]
  omega

/-- The first byte of every word is not zero. -/
theorem noiseByte_word (i : Nat) : wordValue (load noiseByte (8 * i) 8) ≠ 0 := by
  intro hZero
  have hFirst := (wordValue_eq_zero_iff _).mp hZero _
    (List.mem_map_of_mem (List.mem_range.mpr (by decide : 0 < 8)))
  rw [Nat.add_zero, ← UInt8.toNat_inj, noiseByte, if_pos (by omega), UInt8.toNat_ofNat'] at hFirst
  have hLow : (0 : UInt8).toNat = 0 := rfl
  omega

/-- Words in a row are one long store. -/
theorem writeChunks_row (m : Memory) (base : Nat) (data : Memory) (start n : Nat) :
    writeChunks m
      ((List.range n).map fun word => ⟨base + 8 * word, load data (start + 8 * word) 8⟩) =
      store m base (load data start (8 * n)) := by
  induction n with
  | zero => rw [List.range_zero, List.map_nil, Nat.mul_zero, load_zero, store_nil]; rfl
  | succ n ih =>
      rw [List.range_succ, List.map_append, writeChunks_append, ih, Nat.mul_succ, load_add,
        ← store_append, load_length]
      rfl

/-- The flags and the bytes of a page of noise. -/
theorem coverPage_noise {i : Nat} (hIndex : i < 2 ^ 31) (page : Nat) :
    (∀ word < 512, (coverPage i (noiseBase page) (noisePage page)).map1 word = 1) ∧
    ∀ o < 4096, (coverPage i (noiseBase page) (noisePage page)).pagedata o =
      noiseByte (4096 * page + o) := by
  have hEmpty : (⟨zero, fun _ => 0⟩ : PageMap).Exact := fun word => by
    simp [wordFlag, load, zero]
  have hChunks : ∀ chunk ∈ noisePage page, noiseBase page ≤ chunk.addr ∧ chunk.data.length = 8 := by
    intro chunk hChunk
    obtain ⟨word, -, rfl⟩ := List.mem_map.mp hChunk
    exact ⟨Nat.le_add_right .., load_length ..⟩
  obtain ⟨hExact, hCopy⟩ := @foldl_coverChunk (noiseBase page) (noisePage page) ⟨zero, fun _ => 0⟩
    zero hEmpty (fun _ => rfl) hChunks
  rw [coverPage, if_pos hIndex]
  have hBytes : ∀ o < 4096, ((noisePage page).foldl (coverChunk (noiseBase page))
      ⟨zero, fun _ => 0⟩).pagedata o = noiseByte (4096 * page + o) := by
    intro o ho
    rw [hCopy, noisePage, writeChunks_row, store_inside (Nat.le_add_right ..)
      (by rw [load_length]; omega), Nat.add_sub_cancel_left, load_getD (by omega)]
  refine ⟨fun word hWord => ?_, hBytes⟩
  have hWordBytes : load ((noisePage page).foldl (coverChunk (noiseBase page))
      ⟨zero, fun _ => 0⟩).pagedata (8 * word) 8 = load noiseByte (8 * (512 * page + word)) 8 := by
    refine List.map_congr_left fun k hk => ?_
    have hEight := List.mem_range.mp hk
    rw [hBytes _ (by omega)]
    exact congrArg noiseByte (by omega)
  rw [hExact word, wordFlag, hWordBytes, if_neg (noiseByte_word _)]

/-- A page with all flags set keeps its words as they stand. -/
theorem keptWords_full {page : PageMap} {start n : Nat}
    (h : ∀ word < start + n, page.map1 word = 1) :
    keptWords page start n = load page.pagedata (8 * start) (8 * n) := by
  induction n generalizing start with
  | zero => rfl
  | succ n ih =>
      rw [SavedPage.keptWords_succ, if_pos (h start (by omega)),
        ih fun word hw => h word (by omega), Nat.mul_succ, Nat.mul_succ,
        Nat.add_comm (8 * n), load_add]

theorem compressMap_full {map1 : Nat → Nat} (h : ∀ word < 512, map1 word = 1) :
    compressMap map1 512 = List.replicate 64 255 := by
  rw [compressMap, List.eq_replicate_iff]
  refine ⟨by simp, fun byte hByte => ?_⟩
  obtain ⟨i, hi, rfl⟩ := List.mem_map.mp hByte
  have hRow := List.mem_range.mp hi
  simp only [packFlags_succ]
  rw [h _ (by omega), h _ (by omega), h _ (by omega), h _ (by omega), h _ (by omega),
    h _ (by omega), h _ (by omega), h _ (by omega)]
  rfl

/-- The record of a page of noise holds its bytes without a gap. -/
theorem record_noise {i : Nat} (hIndex : i < 2 ^ 31) (page : Nat) :
    SavedPage.record ⟨noiseBase page, coverPage i (noiseBase page) (noisePage page)⟩ =
      noiseRecord page := by
  obtain ⟨hFlags, hBytes⟩ := coverPage_noise hIndex page
  have hData : keptWords (coverPage i (noiseBase page) (noisePage page)) 0 512 =
      load noiseByte (4096 * page) 4096 := by
    rw [keptWords_full fun word hw => hFlags word (by omega)]
    refine List.map_congr_left fun o ho => ?_
    rw [Nat.mul_zero, Nat.zero_add]
    exact hBytes o (List.mem_range.mp ho)
  rw [SavedPage.record, pageRecord_parts, compressMap_full hFlags, hData, noiseRecord]

theorem noisePage_addr {page : Nat} {chunk : FirstLoadInfo} (h : chunk ∈ noisePage page) :
    ∃ word < 512,
      chunk = ⟨noiseBase page + 8 * word, load noiseByte (4096 * page + 8 * word) 8⟩ := by
  obtain ⟨word, hWord, rfl⟩ := List.mem_map.mp h
  exact ⟨word, List.mem_range.mp hWord, rfl⟩

theorem noisePage_word {page : Nat} {chunk : FirstLoadInfo} (h : chunk ∈ noisePage page) :
    wordValue chunk.data ≠ 0 := by
  obtain ⟨word, -, rfl⟩ := noisePage_addr h
  have hPlace : 4096 * page + 8 * word = 8 * (512 * page + word) := by omega
  simp only [hPlace]
  exact noiseByte_word _

theorem noise_succ (start n : Nat) :
    noise start (n + 1) = noisePage start ++ noise (start + 1) n := by
  rw [noise, List.range'_succ, List.flatMap_cons, noise]

theorem mem_noise {start n : Nat} {chunk : FirstLoadInfo} (h : chunk ∈ noise start n) :
    ∃ page, start ≤ page ∧ page < start + n ∧ chunk ∈ noisePage page := by
  obtain ⟨page, hPage, hChunk⟩ := List.mem_flatMap.mp h
  obtain ⟨hLow, hHigh⟩ := List.mem_range'_1.mp hPage
  exact ⟨page, hLow, hHigh, hChunk⟩

/-- Chunks that share a page, in front of others that do not. -/
theorem savedPages_page (i : Nat) {first : FirstLoadInfo} {rest later : List FirstLoadInfo}
    (hIn : ∀ chunk ∈ rest, inPage first.addr chunk)
    (hOut : ∀ chunk ∈ later, ¬ inPage first.addr chunk) :
    savedPages i (first :: rest ++ later) =
      ⟨first.addr, coverPage i first.addr (first :: rest)⟩ ::
        savedPages (i + (first :: rest).length) later := by
  have hTake : later.takeWhile (inPage first.addr) = [] := by
    rw [List.takeWhile_eq_nil_iff]
    exact fun hSome => hOut _ (List.getElem_mem hSome)
  have hDrop : later.dropWhile (inPage first.addr) = later := by
    have hSplit := List.takeWhile_append_dropWhile (p := inPage first.addr) (l := later)
    rwa [hTake, List.nil_append] at hSplit
  rw [List.cons_append, savedPages, List.takeWhile_append_of_pos hIn, hTake, List.append_nil,
    List.dropWhile_append_of_pos hIn, hDrop]

/-- The pages that are saved of the noise are the pages of noise, in order. -/
theorem savedPages_noise {i start n : Nat} (hIndex : i + 512 * n ≤ 2 ^ 31) :
    (savedPages i (noise start n)).map SavedPage.record =
      (List.range' start n).map noiseRecord := by
  induction n generalizing i start with
  | zero => rw [noise, List.range'_zero, List.flatMap_nil, savedPages]; rfl
  | succ n ih =>
      have hPage : noisePage start = ⟨noiseBase start, load noiseByte (4096 * start) 8⟩ ::
          (List.range' 1 511).map fun word =>
            ⟨noiseBase start + 8 * word, load noiseByte (4096 * start + 8 * word) 8⟩ := by
        rw [noisePage, List.range_eq_range']
        rfl
      have hLength : (noisePage start).length = 512 := by
        rw [noisePage, List.length_map, List.length_range]
      have hSplit := @savedPages_page i ⟨noiseBase start, load noiseByte (4096 * start) 8⟩
        ((List.range' 1 511).map fun word =>
          ⟨noiseBase start + 8 * word, load noiseByte (4096 * start + 8 * word) 8⟩)
        (noise (start + 1) n) ?_ ?_
      · rw [← hPage, hLength] at hSplit
        rw [noise_succ, hSplit, List.map_cons, record_noise (by omega), ih (by omega),
          List.range'_succ, List.map_cons]
      · intro chunk hChunk
        obtain ⟨word, hWord, rfl⟩ := List.mem_map.mp hChunk
        have hRow := List.mem_range'_1.mp hWord
        refine decide_eq_true ?_
        simp only [MaxCoverSize]
        omega
      · intro chunk hChunk
        obtain ⟨page, hLow, -, hWord⟩ := mem_noise hChunk
        obtain ⟨word, -, rfl⟩ := noisePage_addr hWord
        have hFar := noiseBase_lt (show start < page by omega)
        refine fun hIn => of_decide_eq_true hIn ?_
        simp only [MaxCoverSize]
        omega

/-- The records of the first `n` pages of noise. -/
theorem records_noise {start n : Nat} (hCount : 512 * n ≤ 2 ^ 31) :
    (savedPages 0 (noise start n)).flatMap SavedPage.record =
      (List.range' start n).flatMap noiseRecord := by
  have hRecords := @savedPages_noise 0 start n (by omega)
  rw [List.flatMap_def, List.flatMap_def, hRecords]

/-- The first loads of a program that reads the noise are as a simulator would list them. -/
theorem noise_chunkList {start n : Nat} (hStart : 0 < start) (hStop : start + n ≤ 16384) :
    ChunkList (noise start n) where
  sized := by
    intro chunk hChunk
    obtain ⟨page, -, -, hWord⟩ := mem_noise hChunk
    obtain ⟨word, -, rfl⟩ := noisePage_addr hWord
    exact load_length ..
  spaced := by
    rw [noise, List.flatMap, List.pairwise_flatten]
    refine ⟨fun chunks hChunks => ?_, ?_⟩
    · obtain ⟨page, -, rfl⟩ := List.mem_map.mp hChunks
      refine List.pairwise_map.mpr (List.pairwise_lt_range.imp fun hLt => ?_)
      simp only
      omega
    · have hSteps : (List.range' start n).Pairwise (· < ·) := List.pairwise_lt_range'
      refine List.pairwise_map.mpr (hSteps.imp fun hLt x hx y hy => ?_)
      obtain ⟨word, hWord, rfl⟩ := noisePage_addr hx
      obtain ⟨word', -, rfl⟩ := noisePage_addr hy
      have hFar := noiseBase_lt hLt
      simp only
      omega
  nonzero := by
    intro chunk hChunk
    obtain ⟨page, hLow, -, hWord⟩ := mem_noise hChunk
    obtain ⟨word, -, rfl⟩ := noisePage_addr hWord
    have hFar := @noiseBase_lt 0 page (by omega)
    simp only
    omega
  below := by
    intro chunk hChunk
    obtain ⟨page, -, hHigh, hWord⟩ := mem_noise hChunk
    obtain ⟨word, hRow, rfl⟩ := noisePage_addr hWord
    simp only [noiseBase]
    omega
  count := by
    have hWidth : ∀ page, (noisePage page).length = 512 := fun page => by
      rw [noisePage, List.length_map, List.length_range]
    rw [noise, List.length_flatMap]
    simp only [hWidth, List.map_const', List.sum_replicate_nat, List.length_range']
    omega

/-- Pages of noise that fill the buffer with the last of them at the earliest are one block. -/
theorem blocks_noise {start n : Nat} (hSome : 0 < n) (hShort : (n - 1) * 4176 < MaxCompressSize) :
    blocks (noise start n) = [⟨(List.range' start n).flatMap noiseRecord, n⟩] := by
  have hCount : 512 * n ≤ 2 ^ 31 := by
    simp only [MaxCompressSize] at hShort
    omega
  have hRecords := @savedPages_noise 0 start n (by omega)
  have hLength : (savedPages 0 (noise start n)).length = n := by
    have hSame := congrArg List.length hRecords
    rwa [List.length_map, List.length_map, List.length_range'] at hSame
  have hPages : savedPages 0 (noise start n) ≠ [] := by
    rwa [← List.length_pos_iff, hLength]
  have hFront : ((savedPages 0 (noise start n)).dropLast.flatMap SavedPage.record).length =
      (n - 1) * 4176 := by
    rw [List.flatMap_def, List.map_dropLast, hRecords, ← List.map_dropLast, ← List.flatMap_def,
      length_flatMap_of_width noiseRecord_length, List.length_dropLast, List.length_range']
  have hSingle := @fills_single WriteBuf.empty _ hPages (by
    rw [hFront, WriteBuf.empty, List.length_nil, Nat.zero_add]
    exact hShort)
  rw [blocks, hSingle, hLength, records_noise hCount, WriteBuf.empty, List.nil_append, Nat.zero_add]

/-- A program that reads 7533 pages of noise, about 30 MB: FastLZ may need more than the
readers have for the only full block. -/
theorem blocks_overflow_reader : ChunkList (noise 1 7533) ∧ ¬ FitsReader (noise 1 7533) := by
  refine ⟨noise_chunkList (by decide) (by decide), fun hFits => ?_⟩
  have hRoom := hFits.recordBytes_le
  rw [recordBytes, records_noise (by decide), length_flatMap_of_width noiseRecord_length,
    List.length_range'] at hRoom
  simp only [MaxCompressSize, ExtraDataSize] at hRoom
  omega

end Noise

end RiscvCkpt

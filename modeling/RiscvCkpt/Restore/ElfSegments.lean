import RiscvCkpt.Restore.CkptFile
import RiscvCkpt.Restore.RestoredCode

/-! `loadelf` on programs with several executable segments. The file offsets of all text
ranges are computed from the first executable `PT_LOAD` header, and the loop over the headers
ends there. -/
namespace RiscvCkpt

open ByteCodec ByteMemory MachineInt

def textHeaders (elf : List UInt8) : List Phdr :=
  ((phdrs elf).filter fun header => header.1.isText).map fun header => header.1

def Phdr.InImage (phdr : Phdr) (b : Nat) : Prop :=
  phdr.p_vaddr ≤ b ∧ b < phdr.p_vaddr + phdr.p_filesz

/-- A well-formed executable, as far as its text is concerned: the headers and the segments
lie in the file, each segment is congruent to its address modulo the page size, and the headers
are in ascending order of their addresses. User addresses and the file are far below what an
`off_t` counts. -/
structure ElfImage (elf : List UInt8) : Prop where
  headers : ∀ header ∈ phdrs elf, header.2 ≤ elf.length
  congruent : ∀ phdr ∈ textHeaders elf, phdr.p_vaddr % 4096 = phdr.p_offset % 4096
  inFile : ∀ phdr ∈ textHeaders elf, phdr.p_offset + phdr.p_filesz ≤ elf.length
  ascending : (textHeaders elf).Pairwise fun a b => a.p_vaddr ≤ b.p_vaddr
  addresses : ∀ phdr ∈ textHeaders elf, phdr.p_vaddr + phdr.p_filesz ≤ 2 ^ 62
  size : elf.length < 2 ^ 62

/-- Text ranges of a program: every page has a byte of an executable segment. -/
structure CodePages (elf : List UInt8) (ranges : List CodeRange) :
    Prop extends TextPages ranges where
  ne_nil : ranges ≠ []
  sizes : ∀ r ∈ ranges, 0 < r.size
  touched : ∀ r ∈ ranges, ∀ page, 4096 ∣ page → r.addr ≤ page → page < r.stop →
    ∃ phdr ∈ textHeaders elf, ∃ b, phdr.InImage b ∧ page ≤ b ∧ b < page + 4096

/-- `loadelf` reads the ranges from the checkpoint, and then every address of a range that
belongs to the file image of an executable segment holds the byte of that segment. -/
def LoadsSegments (elf : List UInt8) (ranges : List CodeRange) (rest : List UInt8) : Prop :=
  ∃ textinfo, readTextinfo (rangeTable ranges ++ rest) = some textinfo ∧
    ∀ m b, (∃ r ∈ ranges, r.Holds b) → ∀ phdr ∈ textHeaders elf, phdr.InImage b →
      loadelf elf textinfo m b = imageByte elf phdr b

/-- The table fits the buffer of the loader, and where the ranges meet an executable segment,
the file has the same bytes at the distance of the first one. -/
def FirstSegmentServes (elf : List UInt8) (ranges : List CodeRange) : Prop :=
  ranges.length ≤ 2048 ∧ ∀ first ∈ (textHeaders elf).head?, ∀ b, (∃ r ∈ ranges, r.Holds b) →
    ∀ phdr ∈ textHeaders elf, phdr.InImage b → imageByte elf first b = imageByte elf phdr b

section Loading

variable {elf : List UInt8} {ranges : List CodeRange} {first : Phdr} {b : Nat}

/-- Reading a range puts the file into it, as far as the file goes. -/
theorem loadRange_shifted {range : CodeRange} (hb : first.p_vaddr ≤ b + first.p_offset)
    (hLow : first.p_vaddr ≤ range.addr + first.p_offset)
    (hHigh : range.addr + first.p_offset < first.p_vaddr + 2 ^ 63) (state : Memory × Nat) :
    (loadRange elf first state range).1 b =
      if range.Holds b ∧ b + first.p_offset - first.p_vaddr < elf.length then
        elf.getD (b + first.p_offset - first.p_vaddr) 0 else state.1 b := by
  have hOffset : uint64 ((range.addr : Int) - first.p_vaddr + first.p_offset) =
      range.addr + first.p_offset - first.p_vaddr := by
    simp only [uint64]
    omega
  have hLength : ((elf.drop (range.addr + first.p_offset - first.p_vaddr)).take range.size).length =
      min range.size (elf.length - (range.addr + first.p_offset - first.p_vaddr)) := by
    rw [List.length_take, List.length_drop]
  simp only [loadRange, hOffset]
  rw [if_pos (by omega)]
  by_cases hIn : range.Holds b ∧ b + first.p_offset - first.p_vaddr < elf.length
  · have hStart : range.addr ≤ b := hIn.1.1
    have hStop : b < range.addr + range.size := hIn.1.2
    have hEnd := hIn.2
    rw [if_pos hIn, store_inside hStart (by omega), List.getD_eq_getElem?_getD,
      List.getElem?_take_of_lt (by omega), List.getElem?_drop, List.getD_eq_getElem?_getD]
    congr 2
    omega
  · rw [if_neg hIn]
    simp only [CodeRange.Holds, CodeRange.stop] at hIn
    exact store_outside (by omega)

/-- The first executable segment is the lowest one. -/
theorem ElfImage.first_le (hElf : ElfImage elf) (hFirst : (textHeaders elf).head? = some first) :
    first ∈ textHeaders elf ∧ ∀ phdr ∈ textHeaders elf, first.p_vaddr ≤ phdr.p_vaddr := by
  have hAscending := hElf.ascending
  refine ⟨List.mem_of_head? hFirst, ?_⟩
  cases hHeaders : textHeaders elf with
  | nil => simp
  | cons header others =>
      rw [hHeaders] at hFirst hAscending
      obtain rfl := Option.some.inj hFirst
      intro phdr hPhdr
      rcases List.mem_cons.mp hPhdr with rfl | hPhdr
      · exact Nat.le_refl _
      · exact (List.pairwise_cons.mp hAscending).1 phdr hPhdr

/-- Both ends of a range are on pages with code. -/
theorem CodePages.ends (hElf : ElfImage elf) (hCode : CodePages elf ranges) {r : CodeRange}
    (hr : r ∈ ranges) :
    (∃ phdr ∈ textHeaders elf, phdr.p_vaddr < r.addr + 4096) ∧ r.addr < 2 ^ 62 ∧
      r.stop ≤ 2 ^ 62 + 4096 := by
  obtain ⟨hAddr, hPages⟩ := hCode.aligned r hr
  have hSize := hCode.sizes r hr
  have hStop : r.stop = r.addr + r.size := rfl
  obtain ⟨phdr, hPhdr, b, hb, hFrom, hTo⟩ :=
    hCode.touched r hr r.addr hAddr (Nat.le_refl _) (by omega)
  obtain ⟨last, hLast, b', hb', hFrom', -⟩ :=
    hCode.touched r hr (r.stop - 4096) (by omega) (by omega) (by omega)
  have hUser := hElf.addresses phdr hPhdr
  have hUser' := hElf.addresses last hLast
  simp only [Phdr.InImage] at hb hb'
  exact ⟨⟨phdr, hPhdr, by omega⟩, by omega, by omega⟩

/-- A range starts at most on the page on which the first segment starts. -/
theorem CodePages.offset (hElf : ElfImage elf) (hCode : CodePages elf ranges)
    (hFirst : (textHeaders elf).head? = some first) {r : CodeRange} (hr : r ∈ ranges) :
    first.p_vaddr ≤ r.addr + first.p_offset ∧ r.addr + first.p_offset < first.p_vaddr + 2 ^ 63 := by
  obtain ⟨hMem, hLowest⟩ := hElf.first_le hFirst
  obtain ⟨⟨phdr, hPhdr, hPage⟩, hUser, -⟩ := hCode.ends hElf hr
  have hAligned := (hCode.aligned r hr).1
  have hLow := hLowest phdr hPhdr
  have hCongruent := hElf.congruent first hMem
  have hFile := hElf.inFile first hMem
  have hLength := hElf.size
  omega

/-- The mapping covers every range. -/
theorem CodePages.mapped (hElf : ElfImage elf) (hCode : CodePages elf ranges)
    (hb : ∃ r ∈ ranges, r.Holds b) : (textSeg ranges).Holds b := by
  obtain ⟨r, hr, hFrom, hTo⟩ := hb
  rcases rangeEnds ranges with hNone | ⟨low, high, hLow, hHigh⟩
  · exact absurd hNone hCode.ne_nil
  · have hLowR := hCode.toTextPages.first_le hLow r hr
    have hHighR := hCode.toTextPages.le_last hHigh r hr
    have hTop := (hCode.ends hElf (List.mem_of_getLast? hHigh)).2.2
    have hHead : ranges.headD ⟨0, 0⟩ = low := by
      rw [List.headD_eq_head?_getD, hLow, Option.getD_some]
    have hLast : ranges.getLastD ⟨0, 0⟩ = high := by
      rw [List.getLastD_eq_getLast?, hHigh, Option.getD_some]
    simp only [textSeg, hHead, hLast, CodeRange.Holds, CodeRange.stop, uint64] at *
    omega

/-- The bytes of the ranges come from the file, at the distance of the first segment. Behind the
end of the file they are zero. -/
theorem loadelf_shifted (hElf : ElfImage elf) (hCode : CodePages elf ranges)
    (hFirst : (textHeaders elf).head? = some first) (hb : ∃ r ∈ ranges, r.Holds b) (m : Memory) :
    loadelf elf ranges m b = elf.getD (b + first.p_offset - first.p_vaddr) 0 := by
  have hLow : first.p_vaddr ≤ b + first.p_offset := by
    obtain ⟨r, hr, hFrom, -⟩ := hb
    have hOffset := (hCode.offset hElf hFirst hr).1
    omega
  have hRead : ∀ r ∈ ranges, ∀ state, _ := fun r hr =>
    @loadRange_shifted elf first b r hLow (hCode.offset hElf hFirst hr).1
      (hCode.offset hElf hFirst hr).2
  have hMapped := hCode.mapped hElf hb
  rw [textHeaders, List.head?_map, List.head?_filter] at hFirst
  obtain ⟨⟨phdr, place⟩, hFind, rfl⟩ := Option.map_eq_some_iff.mp hFirst
  simp only [loadelf, hFind]
  rw [@foldl_read _ _ _ _ (fun state : Memory × Nat => state.1 b) _ _ _ _ hRead]
  split
  · rfl
  · next hEnd =>
      obtain ⟨r, hr, hHolds⟩ := hb
      have hPast : elf.length ≤ b + phdr.p_offset - phdr.p_vaddr :=
        Nat.le_of_not_lt fun hLt => hEnd ⟨r, hr, hHolds, hLt⟩
      have hZero : mapFixed (textSeg ranges) m b = 0 := if_pos hMapped
      rw [List.getD_eq_getElem?_getD, List.getElem?_eq_none hPast, Option.getD_none]
      exact hZero

end Loading

/-- `loadelf` reproduces the executable segments if and only if the first one serves for all of
them: the table fits, and every byte of a range that another segment owns stands in the file at
the distance of the first one too. That is so if all segments have the same distance between
their addresses and their offsets, and in particular for a single segment. -/
theorem loadsSegments_iff {elf : List UInt8} {ranges : List CodeRange} (hElf : ElfImage elf)
    (hCode : CodePages elf ranges) (rest : List UInt8) :
    LoadsSegments elf ranges rest ↔ FirstSegmentServes elf ranges := by
  obtain ⟨hCount, hRanges⟩ := hCode.toTextPages.read rest
  have hByte : ∀ first ∈ (textHeaders elf).head?, ∀ m b, (∃ r ∈ ranges, r.Holds b) →
      ∀ phdr ∈ textHeaders elf, phdr.InImage b →
      loadelf elf ranges m b = imageByte elf first b := by
    intro first hFirst m b hb phdr hPhdr hImage
    have hLowest := (hElf.first_le hFirst).2 phdr hPhdr
    have hPlace : b + first.p_offset - first.p_vaddr = first.p_offset + (b - first.p_vaddr) := by
      simp only [Phdr.InImage] at hImage
      omega
    rw [loadelf_shifted hElf hCode hFirst hb, imageByte, hPlace]
  constructor
  · rintro ⟨textinfo, hRead, hLoads⟩
    rw [readTextinfo, hCount, hRanges] at hRead
    split at hRead
    · next hFits =>
        obtain rfl := Option.some.inj hRead
        refine ⟨hFits, fun first hFirst b hb phdr hPhdr hImage => ?_⟩
        rw [← hByte first hFirst zero b hb phdr hPhdr hImage]
        exact hLoads zero b hb phdr hPhdr hImage
    · exact absurd hRead (by simp)
  · rintro ⟨hFits, hSame⟩
    refine ⟨ranges, by rw [readTextinfo, hCount, if_pos hFits, hRanges], ?_⟩
    intro m b hb phdr hPhdr hImage
    obtain ⟨first, hFirst⟩ := Option.isSome_iff_exists.mp
      (List.isSome_head?.mpr (List.ne_nil_of_mem hPhdr))
    rw [hByte first hFirst m b hb phdr hPhdr hImage]
    exact hSame first hFirst b hb phdr hPhdr hImage

/-- A file of two executable headers with an instruction behind them, at offset 0xb0. The
headers are the first segment, and the second one is the instruction. -/
def twoSegments (vaddr : Nat) : List UInt8 :=
  List.replicate 32 0 ++ wordBytes 8 64 ++ List.replicate 14 0 ++ wordBytes 2 56 ++ wordBytes 2 2 ++
    List.replicate 6 0 ++
  (wordBytes 4 1 ++ wordBytes 4 5 ++ wordBytes 8 0 ++ wordBytes 8 0x10000 ++ wordBytes 8 0 ++
    wordBytes 8 0xb0 ++ wordBytes 8 0xb0 ++ wordBytes 8 4096) ++
  (wordBytes 4 1 ++ wordBytes 4 5 ++ wordBytes 8 0xb0 ++ wordBytes 8 vaddr ++ wordBytes 8 0 ++
    wordBytes 8 4 ++ wordBytes 8 4 ++ wordBytes 8 4096) ++
  wordBytes 4 0x13

def headersPhdr : Phdr := ⟨1, 5, 0, 0x10000, 0xb0, 0xb0⟩

def instPhdr (vaddr : Nat) : Phdr := ⟨1, 5, 0xb0, vaddr, 4, 4⟩

theorem twoSegments_image : ∀ vaddr ∈ [0x100b0, 0x300b0],
    textHeaders (twoSegments vaddr) = [headersPhdr, instPhdr vaddr] ∧
      ElfImage (twoSegments vaddr) := by
  intro vaddr hVaddr
  simp only [List.mem_cons, List.not_mem_nil, or_false] at hVaddr
  have hHeaders : textHeaders (twoSegments vaddr) = [headersPhdr, instPhdr vaddr] := by
    rcases hVaddr with rfl | rfl
    · decide +kernel
    · decide +kernel
  refine ⟨hHeaders, ⟨?_, ?_, ?_, ?_, ?_, ?_⟩⟩
  all_goals
    try rw [hHeaders]
    rcases hVaddr with rfl | rfl
    · decide +kernel
    · decide +kernel

/-- One page holds both segments, as in the file. -/
theorem loadsSegments_near :
    ElfImage (twoSegments 0x100b0) ∧ CodePages (twoSegments 0x100b0) [⟨0x10000, 0x1000⟩] ∧
      LoadsSegments (twoSegments 0x100b0) [⟨0x10000, 0x1000⟩] [] := by
  obtain ⟨hHeaders, hElf⟩ := twoSegments_image 0x100b0 (by simp)
  have hPages : TextPages [⟨0x10000, 0x1000⟩] := by constructor <;> decide
  have hCode : CodePages (twoSegments 0x100b0) [⟨0x10000, 0x1000⟩] := by
    refine ⟨hPages, by decide, by decide, ?_⟩
    intro r hr page hAligned hFrom hTo
    rw [List.mem_singleton.mp hr] at hFrom hTo
    simp only [CodeRange.stop] at hFrom hTo
    refine ⟨headersPhdr, by simp [hHeaders], 0x10000, by simp [Phdr.InImage, headersPhdr],
      by omega, by omega⟩
  refine ⟨hElf, hCode, (loadsSegments_iff hElf hCode []).mpr ⟨by decide, ?_⟩⟩
  rw [hHeaders]
  intro first hFirst b _ phdr hPhdr hImage
  obtain rfl : headersPhdr = first := Option.some.inj hFirst
  simp only [List.mem_cons, List.not_mem_nil, or_false] at hPhdr
  rcases hPhdr with rfl | rfl
  · rfl
  · have hFrom : 0x100b0 ≤ b := hImage.1
    have hPlace : 0 + (b - 0x10000) = 0xb0 + (b - 0x100b0) := by omega
    exact congrArg (fun place => (twoSegments 0x100b0).getD place 0) hPlace

/-- The second segment lies further above the first one in memory than in the file: the page of
the instruction is looked for behind the end of the file. -/
theorem loadelf_misses_segment :
    ElfImage (twoSegments 0x300b0) ∧ CodePages (twoSegments 0x300b0) [⟨0x30000, 0x1000⟩] ∧
      imageByte (twoSegments 0x300b0) (instPhdr 0x300b0) 0x300b0 = 0x13 ∧
      loadelf (twoSegments 0x300b0) [⟨0x30000, 0x1000⟩] zero 0x300b0 = 0 ∧
      ¬ LoadsSegments (twoSegments 0x300b0) [⟨0x30000, 0x1000⟩] [] := by
  obtain ⟨hHeaders, hElf⟩ := twoSegments_image 0x300b0 (by simp)
  have hPages : TextPages [⟨0x30000, 0x1000⟩] := by constructor <;> decide
  have hCode : CodePages (twoSegments 0x300b0) [⟨0x30000, 0x1000⟩] := by
    refine ⟨hPages, by decide, by decide, ?_⟩
    intro r hr page hAligned hFrom hTo
    rw [List.mem_singleton.mp hr] at hFrom hTo
    simp only [CodeRange.stop] at hFrom hTo
    refine ⟨instPhdr 0x300b0, by simp [hHeaders], 0x300b0, by simp [Phdr.InImage, instPhdr],
      by omega, by omega⟩
  have hImage : imageByte (twoSegments 0x300b0) (instPhdr 0x300b0) 0x300b0 =
      0x13 := by decide +kernel
  have hLoaded : loadelf (twoSegments 0x300b0) [⟨0x30000, 0x1000⟩] zero 0x300b0 =
      0 := by decide +kernel
  refine ⟨hElf, hCode, hImage, hLoaded, ?_⟩
  rintro ⟨textinfo, hRead, hLoads⟩
  have hInfo : readTextinfo (rangeTable [⟨0x30000, 0x1000⟩] ++ []) = some [⟨0x30000, 0x1000⟩] := by
    decide +kernel
  obtain rfl := Option.some.inj (hInfo.symm.trans hRead)
  have hByte := hLoads zero 0x300b0 ⟨_, List.mem_singleton_self _, by decide⟩ (instPhdr 0x300b0)
    (by simp [hHeaders]) (by simp [Phdr.InImage, instPhdr])
  rw [hLoaded, hImage] at hByte
  exact absurd hByte (by decide)

end RiscvCkpt

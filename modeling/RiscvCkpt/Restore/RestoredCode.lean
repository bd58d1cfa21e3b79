import RiscvCkpt.Create.Replay
import RiscvCkpt.Restore.LoaderSpace
import RiscvCkpt.Restore.RecoverFirstLoads

/-! The code of a restored program. The loader copies the text ranges from the ELF file,
maps the memory ranges and then writes the first loads, word by word. A word that holds
one loaded byte brings seven other bytes with it, and these may lie on instructions. -/
namespace RiscvCkpt

open ByteCodec ByteMemory MachineInt CkptInfo

/-- A program header, as far as the loader reads it. -/
structure Phdr where
  p_type : Nat
  p_flags : Nat
  p_offset : Nat
  p_vaddr : Nat
  p_filesz : Nat
  p_memsz : Nat
  deriving DecidableEq, Repr

def Phdr.read (file : List UInt8) (place : Nat) : Phdr where
  p_type := wordAt 4 file place
  p_flags := wordAt 4 file (place + 4)
  p_offset := wordAt 8 file (place + 8)
  p_vaddr := wordAt 8 file (place + 16)
  p_filesz := wordAt 8 file (place + 32)
  p_memsz := wordAt 8 file (place + 40)

def Phdr.isText (phdr : Phdr) : Bool :=
  phdr.p_type = 1 ∧ phdr.p_memsz ≠ 0 ∧ phdr.p_filesz > 0 ∧ phdr.p_flags % 2 = 1

/-- The program headers of a file that holds them all, each with the position behind it. -/
def phdrs (file : List UInt8) : List (Phdr × Nat) :=
  let e_phoff := wordAt 8 file 32
  let e_phentsize := wordAt 2 file 54
  let e_phnum := wordAt 2 file 56
  (List.range e_phnum).map fun i =>
    let place := (e_phoff + i * e_phentsize) % 2 ^ 64
    (Phdr.read file place, place + 56)

/-- `mmap` with `MAP_FIXED | MAP_ANON`: fresh pages replace what was there. -/
def mapFixed (range : MemRangeInfo) (m : Memory) : Memory :=
  fun b => if range.Holds b then 0 else m b

/-- One round of the loop that reads the text ranges: the memory and the position in the
file. `fseek` fails on a negative offset and leaves the position; `fread` stops at the end
of the file. -/
def loadRange (file : List UInt8) (phdr : Phdr) (state : Memory × Nat) (range : MemRangeInfo) :
    Memory × Nat :=
  let offset := uint64 ((range.addr : Int) - phdr.p_vaddr + phdr.p_offset)
  let place := if offset < 2 ^ 63 then offset else state.2
  let data := (file.drop place).take range.size
  (store state.1 range.addr data, place + data.length)

/-- `loadelf` for a checkpoint with text ranges; without any, it reads in front of its
table. Only the first executable segment is looked at. -/
def loadelf (file : List UInt8) (textinfo : List MemRangeInfo) (m : Memory) : Memory :=
  let mapped := mapFixed (textSeg textinfo) m
  match (phdrs file).find? fun header => header.1.isText with
  | none => mapped
  | some (phdr, place) => (textinfo.foldl (loadRange file phdr) (mapped, place)).1

def allocMemrange (ranges : List MemRangeInfo) (m : Memory) : Memory :=
  ranges.foldl (fun m r => if r.size ≠ 0 then mapFixed ⟨r.addr, r.size + 4096⟩ m else m) m

/-- `loadelf`, then the steps 3 and 4 of `read_ckptinfo`, with what is left of the file.
`tempdata` has room for 2048 text ranges, so more of them overrun it, as a block does that is too
long for the reader, and a mapping over the loader takes away the code that makes it. -/
def loadMemory (fastlz : FastLZ) (elf : List UInt8) (textinfo memrange : List MemRangeInfo)
    (m : Memory) (file : List UInt8) : Option (Memory × List UInt8) :=
  if textinfo.length ≤ 2048 ∧ SparesLoader textinfo memrange then
    recoveryFirstLoad fastlz (allocMemrange memrange (loadelf elf textinfo m)) file
  else none

/-- The memory when the first loads of a checkpoint are restored. In the file, `after` follows
them. -/
def restoreMemory (fastlz : FastLZ) (elf : List UInt8) (ckpt : CkptInfo) (after : List UInt8)
    (m : Memory) : Option Memory :=
  (loadMemory fastlz elf ckpt.textrange ckpt.memrange m
    ((saveFLoadsComp fastlz WriteBuf.empty ckpt.firstloads).1 ++ after)).map fun loaded => loaded.1

/-- The byte of the ELF image at an address of the segment. -/
def imageByte (elf : List UInt8) (phdr : Phdr) (b : Nat) : UInt8 :=
  elf.getD (phdr.p_offset + (b - phdr.p_vaddr)) 0

/-- An image with one executable segment, which lies in the file and is congruent to its
address modulo the page size. -/
structure ExecImage (elf : List UInt8) (phdr : Phdr) : Prop where
  headers : ∀ header ∈ phdrs elf, header.2 ≤ elf.length
  single : ∃ place, ((phdrs elf).filter fun header => header.1.isText) = [(phdr, place)]
  congruent : phdr.p_vaddr % 4096 = phdr.p_offset % 4096
  inFile : phdr.p_offset + phdr.p_filesz ≤ elf.length
  size : elf.length < 2 ^ 62

/-- The event writes the byte: a store, or the output of a call. -/
def Event.Writes (b : Nat) : Event → Prop
  | .store addr size => addr ≤ b ∧ b < addr + size
  | .sysexe _ _ bufaddr data => bufaddr ≤ b ∧ b < bufaddr + data.length
  | _ => False

/-- The words that restoring the first loads writes. -/
def savedWords (ckpt : CkptInfo) : List FirstLoadInfo :=
  (savedPages 0 ckpt.firstloads).flatMap SavedPage.entries

def Rewritten (ckpt : CkptInfo) (b : Nat) : Prop :=
  ∃ word ∈ savedWords ckpt, word.addr ≤ b ∧ b < word.addr + word.data.length

/-- The byte is loaded with the text, and no memory range is mapped over it. -/
def LoadedText (ckpt : CkptInfo) (b : Nat) : Prop :=
  (∃ r ∈ ckpt.textrange, r.Holds b) ∧
    ¬ ∃ r ∈ ckpt.memrange, r.size ≠ 0 ∧ r.addr ≤ b ∧ b < r.addr + r.size + 4096

/-- A load of the interval has returned a byte other than zero at most seven bytes away. -/
def Beside (events : List Event) (b : Nat) : Prop :=
  ∃ event ∈ events, ∃ byte, event.Loads byte ∧ byte.2 ≠ 0 ∧ byte.1 ≤ b + 7 ∧ b ≤ byte.1 + 7

/-- The byte is loaded before anything is stored there, and the bookkeeping of the interval
records all such bytes. -/
def LoadedItself (events : List Event) (b : Nat) : Prop :=
  BooksRight ∅ events ∧ (firstLoads ∅ events).card < 2 ^ 31 ∧ b ∈ firstLoads ∅ events

section Loading

variable {elf : List UInt8} {phdr : Phdr} {b : Nat}

/-- Reading a range puts the image into it. -/
theorem loadRange_byte (hImage : ExecImage elf phdr) (hb : phdr.p_vaddr ≤ b)
    (hEnd : b < phdr.p_vaddr + phdr.p_filesz) {range : MemRangeInfo}
    (hLow : phdr.p_vaddr ≤ range.addr + phdr.p_offset)
    (hHigh : range.addr + phdr.p_offset < phdr.p_vaddr + 2 ^ 62 + 4) (state : Memory × Nat) :
    (loadRange elf phdr state range).1 b =
      if range.Holds b then imageByte elf phdr b else state.1 b := by
  have hOffset : uint64 ((range.addr : Int) - phdr.p_vaddr + phdr.p_offset) =
      range.addr + phdr.p_offset - phdr.p_vaddr := by
    simp only [uint64]
    omega
  have hFile := hImage.inFile
  simp only [loadRange, hOffset]
  rw [if_pos (by omega)]
  by_cases hIn : range.Holds b
  · have hStart : range.addr ≤ b := hIn.1
    have hStop : b < range.addr + range.size := hIn.2
    have hLength : ((elf.drop (range.addr + phdr.p_offset - phdr.p_vaddr)).take range.size).length =
        min range.size (elf.length - (range.addr + phdr.p_offset - phdr.p_vaddr)) := by
      rw [List.length_take, List.length_drop]
    rw [if_pos hIn, store_inside hStart (by omega), imageByte, List.getD_eq_getElem?_getD,
      List.getElem?_take_of_lt (by omega), List.getElem?_drop, List.getD_eq_getElem?_getD]
    congr 2
    omega
  · have hLength : ((elf.drop (range.addr + phdr.p_offset - phdr.p_vaddr)).take range.size).length ≤
        range.size := List.length_take_le _ _
    rw [if_neg hIn]
    simp only [CodeRange.Holds, CodeRange.stop] at hIn
    exact store_outside (by omega)

/-- A byte of the text that `loadelf` loads is the byte of the image. -/
theorem loadelf_byte (hImage : ExecImage elf phdr) (hb : phdr.p_vaddr ≤ b)
    (hEnd : b < phdr.p_vaddr + phdr.p_filesz) {ranges : List MemRangeInfo}
    (hRanges : ∀ r ∈ ranges, phdr.p_vaddr ≤ r.addr + phdr.p_offset ∧
      r.addr + phdr.p_offset < phdr.p_vaddr + 2 ^ 62 + 4) (m : Memory) :
    loadelf elf ranges m b =
      if ∃ r ∈ ranges, r.Holds b then imageByte elf phdr b
      else if (textSeg ranges).Holds b then 0 else m b := by
  obtain ⟨place, hSingle⟩ := hImage.single
  have hFind : ((phdrs elf).find? fun header => header.1.isText) = some (phdr, place) := by
    rw [← List.head?_filter, hSingle, List.head?_cons]
  simp only [loadelf, hFind]
  apply @foldl_read _ _ _ _ (fun state : Memory × Nat => state.1 b)
    (fun r : MemRangeInfo => r.Holds b)
  intro r hr state
  exact loadRange_byte hImage hb hEnd (hRanges r hr).1 (hRanges r hr).2 state

/-- A byte is zero behind `alloc_memrange` if a range covers it, and unchanged otherwise. -/
theorem allocMemrange_byte (ranges : List MemRangeInfo) (m : Memory) :
    allocMemrange ranges m b =
      if ∃ r ∈ ranges, r.size ≠ 0 ∧ r.addr ≤ b ∧ b < r.addr + r.size + 4096 then 0 else m b := by
  apply @foldl_read _ _ _ _ (fun m : Memory => m b)
    (fun r : MemRangeInfo => r.size ≠ 0 ∧ r.addr ≤ b ∧ b < r.addr + r.size + 4096)
  intro r _ m
  by_cases hSize : r.size ≠ 0
  · rw [if_pos hSize]
    refine if_congr ?_ rfl rfl
    simp only [CodeRange.Holds, CodeRange.stop, ne_eq, hSize, not_false_eq_true, true_and,
      Nat.add_assoc]
  · rw [if_neg hSize, if_neg fun h => hSize h.1]

theorem writeChunks_writes (chunks : List FirstLoadInfo) :
    Writes (fun m => writeChunks m chunks)
      (fun b => ∃ chunk ∈ chunks, chunk.addr ≤ b ∧ b < chunk.addr + chunk.data.length) :=
  Writes.foldl fun chunk _ => Writes.store chunk.addr chunk.data

/-- Loading a checkpoint: the text, zeros in the memory ranges, and then the first loads. -/
theorem loadMemory_eq (fastlz : FastLZ) (elf : List UInt8) {ckpt : CkptInfo}
    (hAddr : Addressable ckpt.firstloads) (hCount : ckpt.firstloads.length < 2 ^ 64)
    (hTable : ckpt.textrange.length ≤ 2048) (hSpares : SparesLoader ckpt.textrange ckpt.memrange)
    (hFits : BlocksFit fastlz ckpt.firstloads) (after : List UInt8) (m : Memory) :
    loadMemory fastlz elf ckpt.textrange ckpt.memrange m
        ((saveFLoadsComp fastlz WriteBuf.empty ckpt.firstloads).1 ++ after) =
      some (writeChunks (allocMemrange ckpt.memrange (loadelf elf ckpt.textrange m))
        (savedWords ckpt), after) := by
  rw [loadMemory, if_pos ⟨hTable, hSpares⟩, recoveryFirstLoad_eq,
    readFirstLoad_saveFLoadsComp fastlz hAddr hCount, if_pos hFits]
  rfl

/-- The restored memory of a checkpoint whose file can be loaded. -/
theorem restoreMemory_eq (fastlz : FastLZ) (elf : List UInt8) {ckpt : CkptInfo}
    (hAddr : Addressable ckpt.firstloads) (hCount : ckpt.firstloads.length < 2 ^ 64)
    (hTable : ckpt.textrange.length ≤ 2048) (hSpares : SparesLoader ckpt.textrange ckpt.memrange)
    (hFits : BlocksFit fastlz ckpt.firstloads) (after : List UInt8) (m : Memory) :
    restoreMemory fastlz elf ckpt after m =
      some (writeChunks (allocMemrange ckpt.memrange (loadelf elf ckpt.textrange m))
        (savedWords ckpt)) := by
  rw [restoreMemory, loadMemory_eq fastlz elf hAddr hCount hTable hSpares hFits, Option.map_some]

/-- A byte of the image that is loaded with the text keeps its value unless it is rewritten. -/
theorem restored_text {ckpt : CkptInfo} (hImage : ExecImage elf phdr) (hb : phdr.p_vaddr ≤ b)
    (hEnd : b < phdr.p_vaddr + phdr.p_filesz)
    (hRanges : ∀ r ∈ ckpt.textrange, phdr.p_vaddr ≤ r.addr + phdr.p_offset ∧
      r.addr + phdr.p_offset < phdr.p_vaddr + 2 ^ 62 + 4)
    (hLoaded : LoadedText ckpt b) (hOut : ¬ Rewritten ckpt b) (m : Memory) :
    writeChunks (allocMemrange ckpt.memrange (loadelf elf ckpt.textrange m)) (savedWords ckpt) b =
      imageByte elf phdr b := by
  rw [(writeChunks_writes (savedWords ckpt)).outside b hOut, allocMemrange_byte, if_neg hLoaded.2,
    loadelf_byte hImage hb hEnd hRanges, if_pos hLoaded.1]

end Loading

section Interval

variable (interval : GuestInterval) (stack : Nat → Nat → UInt8) (exist : Nat → UInt8)
  {start : CkptInfo} (exit_place exit_pc : Nat)

/-- The text ranges of an interval begin in the image, up to the page that it begins on. -/
theorem textrange_inFile (hStart : start.Started) {elf : List UInt8} {phdr : Phdr}
    (hImage : ExecImage elf phdr)
    (hPcs : ∀ pc ∈ executedPcs interval.events, phdr.p_vaddr ≤ pc ∧
      pc < phdr.p_vaddr + phdr.p_filesz) :
    ∀ r ∈ ((start.hooks stack interval.events).close exist exit_place exit_pc).textrange,
      phdr.p_vaddr ≤ r.addr + phdr.p_offset ∧
        r.addr + phdr.p_offset < phdr.p_vaddr + 2 ^ 62 + 4 := by
  intro r hr
  have hRanges : (start.hooks stack interval.events).textrange = [] :=
    (hooks_ranges stack start interval.events).1.trans hStart.textrange
  have hText : r ∈ (getTextRange (start.hooks stack interval.events).textAccess []).1 := by
    rw [← hRanges]
    exact hr
  obtain ⟨a, ha, hAddr⟩ := getTextRange_addr (textAccess_near interval stack hStart) hText
  obtain ⟨pc, hPc, hExec⟩ := (textAccess_started interval stack hStart a).mp ha
  have hIn := hPcs pc hPc
  have hCongruent := hImage.congruent
  have hFile := hImage.inFile
  have hSize := hImage.size
  simp only [pageOf] at *
  omega

/-- The text ranges hold the pages of the executed instructions. -/
theorem textrange_holds_iff (hStart : start.Started) (b : Nat) :
    (∃ r ∈ ((start.hooks stack interval.events).close exist exit_place exit_pc).textrange,
      r.Holds b) ↔
      pageOf b ∈ textPages interval.events := by
  obtain ⟨total, hExact⟩ := close_text_exact interval stack exist exit_place exit_pc hStart
  have hAccess := textAccess_started interval stack hStart
  rw [mem_textPages, hExact.exact]
  constructor
  · rintro ⟨a, ha, hPage⟩
    obtain ⟨pc, hPc, hEq⟩ := (hAccess a).mp ha
    refine ⟨pc, hPc, ?_⟩
    simp only [SharesPage, pageOf] at hEq ⊢
    omega
  · rintro ⟨pc, hPc, hShares⟩
    by_cases hOwn : pageOf b = pageOf pc
    · refine ⟨pc, (hAccess pc).mpr ⟨pc, hPc, Or.inl rfl⟩, ?_⟩
      simp only [pageOf] at hOwn
      omega
    · simp only [SharesPage, pageOf] at hShares hOwn
      refine ⟨pc + 4096, (hAccess _).mpr ⟨pc, hPc, Or.inr ⟨?_, rfl⟩⟩, by omega⟩
      simp only [pageOf]
      omega

/-- There are no more text ranges than runs of pages: each range ends with a run. -/
theorem textrange_length_le (hStart : start.Started) :
    ((start.hooks stack interval.events).close exist exit_place exit_pc).textrange.length ≤
      (textRuns interval.events).card := by
  obtain ⟨total, hExact⟩ := close_text_exact interval stack exist exit_place exit_pc hStart
  have hHeld := textrange_holds_iff interval stack exist exit_place exit_pc hStart
  generalize ((start.hooks stack interval.events).close exist exit_place exit_pc).textrange =
    made at *
  have hEnds : ∀ r ∈ made, r.stop - 4096 ∈ textRuns interval.events := by
    intro r hr
    obtain ⟨hAddr, hSize, hPos⟩ := hExact.aligned r hr
    have hStop : r.stop = r.addr + r.size := rfl
    have hPage : pageOf (r.stop - 4096) = r.stop - 4096 := by
      simp only [pageOf]
      omega
    have hNext : pageOf r.stop = r.stop - 4096 + 4096 := by
      simp only [pageOf]
      omega
    refine Finset.mem_filter.mpr ⟨?_, ?_⟩
    · rw [← hPage, ← hHeld]
      exact ⟨r, hr, by omega, by omega⟩
    · rw [← hNext, ← hHeld]
      exact hExact.stop_free (by decide) hr
  have hNodup : (made.map fun r => r.stop - 4096).Nodup := by
    apply List.pairwise_map.mpr
    refine hExact.spaced.imp_of_mem fun {x y} hx hy hApart => ?_
    obtain ⟨-, hSize, hPos⟩ := hExact.aligned y hy
    simp only [CodeRange.stop] at hApart ⊢
    omega
  have hSub : (made.map fun r => r.stop - 4096).toFinset ⊆ textRuns interval.events := by
    intro page hPage
    obtain ⟨r, hr, rfl⟩ := List.mem_map.mp (List.mem_toFinset.mp hPage)
    exact hEnds r hr
  have hCard := Finset.card_le_card hSub
  rwa [List.toFinset_card_of_nodup hNodup, List.length_map] at hCard

/-- The first loads of an interval can be saved, and saving them loses nothing. -/
theorem savedWords_memory (hFresh : start.Fresh)
    (hNull : ∀ addr size data, .load addr size data ∈ interval.events → addr ≠ 0) :
    let info := start.hooks stack interval.events
    let ckpt := info.close exist exit_place exit_pc
    ckpt.firstloads = combineLoads [] (packedBytes (temploads info.loads)) ∧
    Addressable ckpt.firstloads ∧ ckpt.firstloads.length < 2 ^ 31 ∧
    writeChunks zero (savedWords ckpt) = writeChunks zero ckpt.firstloads := by
  intro info ckpt
  have hNone : info.firstloads = [] :=
    (congrArg CkptInfo.firstloads (hooks_header stack start interval.events)).trans
      hFresh.firstloads
  have hPacked : ckpt.firstloads = combineLoads [] (packedBytes (temploads info.loads)) := by
    rw [← combineLoads_packedBytes, ← hNone]
    rfl
  have hShort := packedBytes_length (temploads info.loads)
  obtain ⟨hSized, hSpaced, hSources, hLength⟩ := combineLoads_shape hShort
  rw [← hPacked] at hSized hSpaced hSources hLength
  refine ⟨hPacked, fun chunk hc => ?_, Nat.lt_of_le_of_lt hLength hShort, ?_⟩
  · obtain ⟨byte, hb, hAddr⟩ := hSources chunk hc
    obtain hOld | ⟨event, hEvent, hLoads⟩ :=
      start.hooks_temploads stack interval.guest (packedBytes_subset hb)
    · rw [hFresh.loads] at hOld
      exact absurd hOld List.not_mem_nil
    · cases event with
      | load addr size data =>
          have hSome := hNull addr size data hEvent
          have hGuest := interval.guest _ hEvent
          simp only [Event.Loads] at hLoads
          simp only [Event.Guest] at hGuest
          omega
      | inst => exact hLoads.elim
      | store => exact hLoads.elim
      | sysenter => exact hLoads.elim
      | sysexe => exact hLoads.elim
      | sysret => exact hLoads.elim
  · exact writeChunks_savedPages hSized (layered_of_spaced hSized hSpaced) (by omega)
      fun _ _ _ _ => rfl

/-- A byte that is rewritten lies beside a byte that the interval has loaded. -/
theorem Rewritten.beside (hFresh : start.Fresh)
    (hNull : ∀ addr size data, .load addr size data ∈ interval.events → addr ≠ 0) {b : Nat}
    (h : Rewritten ((start.hooks stack interval.events).close exist exit_place exit_pc) b) :
    Beside interval.events b := by
  obtain ⟨hPacked, -, hCount, -⟩ :=
    savedWords_memory interval stack exist exit_place exit_pc hFresh hNull
  have hShort := packedBytes_length (temploads (start.hooks stack interval.events).loads)
  obtain ⟨hSized, hSpaced, -, -⟩ := combineLoads_shape hShort
  obtain ⟨word, hWord, hLow, hHigh⟩ := h
  rw [savedWords, hPacked] at hWord
  rw [hPacked] at hCount
  obtain ⟨a, hFrom, hTo, chunk, hc, hAbove, hSome⟩ := savedPages_source hSized
    (layered_of_spaced hSized hSpaced) (by omega) hWord
  -- the byte of the chunk is in memory after packing, so it was recorded
  have hIn : a - chunk.addr < 8 := by
    by_contra hOut
    apply hSome
    rw [List.getD_eq_getElem?_getD, List.getElem?_eq_none (by rw [hSized chunk hc]; omega),
      Option.getD_none]
  have hMemory := writeChunks_inside zero hSized hSpaced hc hIn
  rw [Nat.add_sub_cancel' hAbove] at hMemory
  obtain ⟨byte, hByte, hAt, hValue⟩ : ∃ byte ∈ packedBytes
      (temploads (start.hooks stack interval.events).loads), byte.1 = a ∧ byte.2 ≠ 0 := by
    by_contra hNone
    have hZero := @combineLoads_byte _ hShort a 0 fun byte hByte hAt => by
      by_contra hValue
      exact hNone ⟨byte, hByte, hAt, hValue⟩
    rw [ite_self, hMemory] at hZero
    exact hSome hZero
  have hLength : word.data.length = 8 := by
    obtain ⟨page, -, hEntry⟩ := List.mem_flatMap.mp hWord
    obtain ⟨c, -, -, rfl⟩ := SavedPage.mem_entries hEntry
    exact load_length ..
  rcases start.hooks_temploads stack interval.guest (packedBytes_subset hByte) with
    hOld | ⟨event, hEvent, hLoads⟩
  · rw [hFresh.loads] at hOld
    exact absurd hOld List.not_mem_nil
  · exact ⟨event, hEvent, byte, hLoads, hValue, by omega, by omega⟩

/-- What the first loads hold at a byte of an instruction that has been loaded or is zero. -/
theorem savedWords_byte (hFresh : start.Fresh)
    (hNull : ∀ addr size data, .load addr size data ∈ interval.events → addr ≠ 0)
    {elf : List UInt8} {phdr : Phdr} {b : Nat}
    (hReads : ∀ v, (∃ event ∈ interval.events, event.Loads (b, v)) → v = imageByte elf phdr b)
    (hOwn : imageByte elf phdr b = 0 ∨ LoadedItself interval.events b) :
    writeChunks zero (savedWords
      ((start.hooks stack interval.events).close exist exit_place exit_pc)) b =
        imageByte elf phdr b := by
  obtain ⟨hPacked, -, -, hMemory⟩ :=
    savedWords_memory interval stack exist exit_place exit_pc hFresh hNull
  rw [hMemory]
  rcases hOwn with hZero | ⟨hRight, hFew, hLoaded⟩
  · have hValue : ∀ byte ∈ packedBytes (temploads (start.hooks stack interval.events).loads),
        byte.1 = b → byte.2 = 0 := by
      rintro byte hb rfl
      obtain hOld | hLoads := start.hooks_temploads stack interval.guest (packedBytes_subset hb)
      · rw [hFresh.loads] at hOld
        exact absurd hOld List.not_mem_nil
      · rw [hReads byte.2 hLoads, hZero]
    rw [hPacked, combineLoads_byte (packedBytes_length _) hValue, ite_self, hZero]
  · obtain ⟨v, hFirst⟩ := mem_firstLoads.mp hLoaded
    have hFit := hooks_recorded_length stack hFresh.knows interval.guest hRight hFresh.loads
    have hByte := @restoredMemory_hooks stack start hFresh _ interval.guest hRight
      (hFit.symm ▸ hFew) (b, v) hFirst
    rw [← hReads v hFirst.loads]
    exact hByte

/-- An executed page is loaded with the text, and no memory range is mapped over it. -/
theorem loadedText_of_shares (hStart : start.Started)
    (hCut : textStop interval.events ≤ uint64 (int32 (textStop interval.events))) {pc b : Nat}
    (hPc : pc ∈ executedPcs interval.events) (hShares : SharesPage pc b) :
    LoadedText ((start.hooks stack interval.events).close exist exit_place exit_pc) b := by
  obtain ⟨hAbove, -⟩ := close_memrange interval stack exist exit_place exit_pc hStart
  have hBelow := le_textStop hPc
  constructor
  · rw [textrange_holds_iff interval stack exist exit_place exit_pc hStart, mem_textPages]
    exact ⟨pc, hPc, hShares⟩
  · rintro ⟨r, hr, -, hLow, -⟩
    have hFrom := (hAbove r hr).1
    simp only [SharesPage, pageOf] at hShares hBelow
    omega

/-- A byte of the image on an executed page is restored, if its loads see the image and the bytes
that are loaded beside it bring the right value with them. -/
theorem restored_code (hStart : start.Started) (hFresh : start.Fresh)
    (hNull : ∀ addr size data, .load addr size data ∈ interval.events → addr ≠ 0)
    {elf : List UInt8} {phdr : Phdr} (hImage : ExecImage elf phdr)
    (hPcs : ∀ pc ∈ executedPcs interval.events,
      phdr.p_vaddr ≤ pc ∧ pc < phdr.p_vaddr + phdr.p_filesz)
    (hCut : textStop interval.events ≤ uint64 (int32 (textStop interval.events))) {b : Nat}
    (hLow : phdr.p_vaddr ≤ b) (hHigh : b < phdr.p_vaddr + phdr.p_filesz)
    (hPage : ∃ pc ∈ executedPcs interval.events, SharesPage pc b)
    (hReads : ∀ v, (∃ event ∈ interval.events, event.Loads (b, v)) → v = imageByte elf phdr b)
    (hBeside : Beside interval.events b →
      imageByte elf phdr b = 0 ∨ LoadedItself interval.events b) (m : Memory) :
    let ckpt := (start.hooks stack interval.events).close exist exit_place exit_pc
    writeChunks (allocMemrange ckpt.memrange (loadelf elf ckpt.textrange m)) (savedWords ckpt) b =
      imageByte elf phdr b := by
  intro ckpt
  by_cases hIn : Rewritten ckpt b
  · have hNear := hIn.beside interval stack exist exit_place exit_pc hFresh hNull
    rw [(writeChunks_writes _).inside b hIn _ zero]
    exact savedWords_byte interval stack exist exit_place exit_pc hFresh hNull hReads
      (hBeside hNear)
  · obtain ⟨pc, hPc, hShares⟩ := hPage
    exact restored_text hImage hLow hHigh
      (textrange_inFile interval stack exist exit_place exit_pc hStart hImage hPcs)
      (loadedText_of_shares interval stack exist exit_place exit_pc hStart hCut hPc hShares) hIn m

end Interval

/-- A file with one executable segment, all of it, at `0x1000`. Behind the headers come eight
bytes of data and one instruction, at `0x1080`. -/
def codeElf : List UInt8 :=
  List.replicate 32 0 ++ wordBytes 8 64 ++ List.replicate 14 0 ++ wordBytes 2 56 ++ wordBytes 2 1 ++
    List.replicate 6 0 ++
  (wordBytes 4 1 ++ wordBytes 4 5 ++ wordBytes 8 0 ++ wordBytes 8 0x1000 ++ wordBytes 8 0 ++
    wordBytes 8 132 ++ wordBytes 8 132 ++ wordBytes 8 4096) ++
  [0, 0, 0, 0, 0, 0, 1, 0] ++ wordBytes 4 0x13

section Sample

variable {addr : Nat} {value : UInt8} (h : addr < 2 ^ 63)

end Sample

end RiscvCkpt

import Mathlib.Data.List.TakeWhile
import RiscvCkpt.Create.SaveFirstLoads

/-! Reading a first-load section back into a list of words, as the tools do it.
The section has three formats. A file is the list of the bytes from the current
position on, and a reader returns what is left of it. -/
namespace RiscvCkpt

open ByteCodec ByteMemory

/-- The loop over the bits of a map byte: a set bit stands for a word of the data. -/
def readBits (taddr : Nat) (data : List UInt8) : Nat → Nat → List FirstLoadInfo × List UInt8
  | _, 0 => ([], data)
  | bits, n + 1 =>
      if bits % 2 = 1 then
        let rest := readBits (taddr + 8) (data.drop 8) (bits / 2) n
        (⟨taddr, data.take 8⟩ :: rest.1, rest.2)
      else readBits (taddr + 8) data (bits / 2) n

def readMap (taddr : Nat) (data : List UInt8) : List UInt8 → List FirstLoadInfo × List UInt8
  | [] => ([], data)
  | byte :: rest =>
      let words := readBits taddr data byte.toNat 8
      let others := readMap (taddr + 64) words.2 rest
      (words.1 ++ others.1, others.2)

/-- One page behind its base address: the page size, the map and the words. -/
def readPage (addr : Nat) (data : List UInt8) : List FirstLoadInfo × List UInt8 :=
  let mapsize := wordAt 8 data 0 / 64
  readMap addr (data.drop (8 + mapsize)) ((data.drop 8).take mapsize)

/-- The loop over the pages of a block; a zero address ends it early. -/
def readPages (data : List UInt8) : Nat → List FirstLoadInfo × List UInt8
  | 0 => ([], data)
  | infonum + 1 =>
      let addr := wordAt 8 data 0
      if addr = 0 then ([], data)
      else
        let page := readPage addr (data.drop 8)
        let others := readPages page.2 infonum
        (page.1 ++ others.1, others.2)

theorem ne_nil_of_wordAt {width offset : Nat} {bytes : List UInt8}
    (h : wordAt width bytes offset ≠ 0) :
    bytes ≠ [] := by
  rintro rfl
  simp [wordAt] at h

/-- The file behind a block with its two words. -/
theorem drop_block_lt {file : List UInt8} (h : wordAt 8 file 0 ≠ 0) :
    (file.drop (16 + wordAt 8 file 0)).length < file.length := by
  have hFile := List.length_pos_iff.mpr (ne_nil_of_wordAt h)
  rw [List.length_drop]
  omega

/-- `read_fastlz`. Nothing checks `compsize`: a block that is longer than the buffer
`compdata` is read over its end, and then the result is `none`. -/
def readFastlz (fastlz : FastLZ) (file : List UInt8) :
    Option (List FirstLoadInfo × List UInt8) :=
  if h : wordAt 8 file 0 = 0 then some ([], file.drop 8)
  else
    let compsize := wordAt 8 file 0
    let infonum := wordAt 8 file 8
    let compdata := (file.drop 16).take compsize
    have : (file.drop (16 + compsize)).length < file.length := drop_block_lt h
    if MaxCompressSize + ExtraDataSize < compdata.length then none
    else
      let rawdata := fastlz.decompress compdata
      (readFastlz fastlz (file.drop (16 + compsize))).map fun others =>
        ((readPages rawdata infonum).1 ++ others.1, others.2)
  termination_by file.length

/-- `read_datamap`: pages without compression, up to a zero address. -/
def readDatamap (file : List UInt8) : Nat → List FirstLoadInfo × List UInt8
  | 0 => ([], file)
  | fuel + 1 =>
      let addr := wordAt 8 file 0
      if addr = 0 then ([], file.drop 8)
      else
        let page := readPage addr (file.drop 8)
        let others := readDatamap page.2 fuel
        (page.1 ++ others.1, others.2)

/-- `read_nocomp`: a count, then pairs of an address and a word. -/
def readNocomp (file : List UInt8) : List FirstLoadInfo × List UInt8 :=
  let loadnum := wordAt 8 file 0
  ((List.range loadnum).map fun j =>
    ⟨wordAt 8 file (8 + 16 * j), wordBytes 8 (wordAt 8 file (8 + 16 * j + 8))⟩,
    file.drop (8 + 16 * loadnum))

/-- `read_FirstLoad`: the tag decides; without a tag the position is set back. -/
def readFirstLoad (fastlz : FastLZ) (file : List UInt8) :
    Option (List FirstLoadInfo × List UInt8) :=
  let compressTag := wordAt 8 file 0
  if compressTag = 0x123456 + 1 then some (readDatamap (file.drop 8) file.length)
  else if compressTag = 0x123456 + 2 ∨ compressTag = 0x123456 + 3 then
    readFastlz fastlz (file.drop 8)
  else some (readNocomp file)

theorem packFlags_succ (map1 : Nat → Nat) (start n : Nat) :
    packFlags map1 start (n + 1) = 2 * packFlags map1 (start + 1) n + map1 start := rfl

/-- `n` flags make a number of `n` bits. -/
theorem packFlags_lt {map1 : Nat → Nat} (hFlag : ∀ c, map1 c < 2) (start n : Nat) :
    packFlags map1 start n < 2 ^ n := by
  induction n generalizing start with
  | zero => exact Nat.one_pos
  | succ n ih =>
      have hRest := ih (start + 1)
      have hFirst := hFlag start
      rw [packFlags_succ, Nat.pow_succ]
      omega

structure SavedPage where
  base : Nat
  map : PageMap

namespace SavedPage

def record (page : SavedPage) : List UInt8 := pageRecord page.base page.map

/-- The kept words of the page from the `start`-th on, as entries. -/
def entriesFrom (page : SavedPage) (start n : Nat) : List FirstLoadInfo :=
  ((List.range' start n).filter fun c => page.map.map1 c = 1).map fun c =>
    ⟨page.base + 8 * c, load page.map.pagedata (8 * c) 8⟩

def entries (page : SavedPage) : List FirstLoadInfo := page.entriesFrom 0 512

/-- The reader can tell the page from the end of the section, and its flags are bits. -/
structure Valid (page : SavedPage) : Prop where
  base_ne : page.base ≠ 0
  base_lt : page.base < 2 ^ 64
  flags : ∀ c, page.map.map1 c < 2

variable {page : SavedPage}

/-- An entry of a page is one of its kept words. -/
theorem mem_entries {info : FirstLoadInfo} (h : info ∈ page.entries) :
    ∃ c < 512, page.map.map1 c = 1 ∧
      info = ⟨page.base + 8 * c, load page.map.pagedata (8 * c) 8⟩ := by
  obtain ⟨c, hc, rfl⟩ := List.mem_map.mp h
  obtain ⟨hRange, hKept⟩ := List.mem_filter.mp hc
  have hLt := List.mem_range'_1.mp hRange
  exact ⟨c, by omega, of_decide_eq_true hKept, rfl⟩

theorem keptWords_succ (page : PageMap) (start n : Nat) :
    keptWords page start (n + 1) =
      (if page.map1 start = 1 then load page.pagedata (8 * start) 8 else []) ++
        keptWords page (start + 1) n := by
  by_cases hKept : page.map1 start = 1
  · simp [keptWords, List.range'_succ, hKept]
  · simp [keptWords, List.range'_succ, hKept]

theorem keptWords_append (page : PageMap) (start n k : Nat) :
    keptWords page start (n + k) = keptWords page start n ++ keptWords page (start + n) k := by
  rw [keptWords, ← List.range'_append_1, List.filter_append, List.flatMap_append]
  rfl

theorem entriesFrom_append (page : SavedPage) (start n k : Nat) :
    page.entriesFrom start (n + k) = page.entriesFrom start n ++ page.entriesFrom
      (start + n) k := by
  rw [entriesFrom, ← List.range'_append_1, List.filter_append, List.map_append]
  rfl

/-- The bits of a map byte lead through the kept words they stand for. -/
theorem readBits_packFlags (hFlag : ∀ c, page.map.map1 c < 2) (start n : Nat) (tail : List UInt8) :
    readBits (page.base + 8 * start) (keptWords page.map start n ++ tail)
      (packFlags page.map.map1 start n) n = (page.entriesFrom start n, tail) := by
  induction n generalizing start with
  | zero => rfl
  | succ n ih =>
      have hFirst := hFlag start
      have hNext : page.base + 8 * start + 8 = page.base + 8 * (start + 1) := by ring
      have hHalf : packFlags page.map.map1 start (n + 1) / 2 =
          packFlags page.map.map1 (start + 1) n := by
        rw [packFlags_succ]
        omega
      have hLow : packFlags page.map.map1 start (n + 1) % 2 = page.map.map1 start := by
        rw [packFlags_succ]
        omega
      by_cases hKept : page.map.map1 start = 1
      · have hWord : ∀ rest, (load page.map.pagedata (8 * start) 8 ++ rest).take 8 =
            load page.map.pagedata (8 * start) 8 := fun rest => List.take_left' (load_length ..)
        have hBehind : ∀ rest, (load page.map.pagedata (8 * start) 8 ++ rest).drop 8 = rest :=
          fun rest => List.drop_left' (load_length ..)
        rw [readBits, hLow, if_pos hKept, hHalf, keptWords_succ, if_pos hKept, List.append_assoc,
          hWord, hBehind, hNext, ih]
        simp only [entriesFrom, List.range'_succ, List.filter_cons, hKept, decide_true, if_true,
          List.map_cons]
      · rw [readBits, hLow, if_neg hKept, hHalf, keptWords_succ, if_neg hKept, List.nil_append,
          hNext, ih]
        simp only [entriesFrom, List.range'_succ, List.filter_cons, hKept, decide_false,
          Bool.false_eq_true, if_false]

/-- The reader of a map finds the words that the writer has kept. -/
theorem readMap_compressMap (hFlag : ∀ c, page.map.map1 c < 2) (k n : Nat) (tail : List UInt8) :
    readMap (page.base + 64 * k) (keptWords page.map (8 * k) (8 * n) ++ tail)
      ((List.range' k n).map fun i => UInt8.ofNat (packFlags page.map.map1 (8 * i) 8)) =
      (page.entriesFrom (8 * k) (8 * n), tail) := by
  induction n generalizing k with
  | zero => rfl
  | succ n ih =>
      have hByte : (UInt8.ofNat (packFlags page.map.map1 (8 * k) 8)).toNat =
          packFlags page.map.map1 (8 * k) 8 := by
        have hLt := packFlags_lt hFlag (8 * k) 8
        rw [UInt8.toNat_ofNat']
        omega
      have hAddr : page.base + 64 * k = page.base + 8 * (8 * k) := by ring
      have hNext : page.base + 8 * (8 * k) + 64 = page.base + 64 * (k + 1) := by ring
      have hStart : 8 * k + 8 = 8 * (k + 1) := by ring
      rw [List.range'_succ, List.map_cons, readMap, hByte, Nat.mul_succ, Nat.add_comm (8 * n),
        keptWords_append, List.append_assoc, hAddr, readBits_packFlags hFlag, hNext, hStart, ih,
        entriesFrom_append, hStart]

/-- A page record as it stands in a file: its address, and what `readPage` reads. -/
theorem read_record (h : page.Valid) (tail : List UInt8) :
    wordAt 8 (page.record ++ tail) 0 = page.base ∧
    readPage page.base ((page.record ++ tail).drop 8) = (page.entries, tail) := by
  have hRecord : (page.record ++ tail).drop 0 = wordBytes 8 page.base ++
      (wordBytes 8 MaxCoverSize ++ (compressMap page.map.map1 512 ++
        (keptWords page.map 0 512 ++ tail))) := by
    simp only [List.drop_zero, record, pageRecord_parts, List.append_assoc]
  have hLt := h.base_lt
  have hAddr := wordAt_of_drop hRecord (by omega)
  have hBehind : (page.record ++ tail).drop 8 = _ := drop_past hRecord (wordBytes_length 8 _)
  refine ⟨hAddr, ?_⟩
  rw [hBehind]
  generalize hData : wordBytes 8 MaxCoverSize ++ (compressMap page.map.map1 512 ++
    (keptWords page.map 0 512 ++ tail)) = data
  have hDrop : data.drop 0 = wordBytes 8 MaxCoverSize ++ (compressMap page.map.map1 512 ++
    (keptWords page.map 0 512 ++ tail)) := hData.symm
  have hSize : wordAt 8 data 0 / 64 = 64 := by
    rw [wordAt_of_drop hDrop (by decide)]
    rfl
  have hMap : data.drop 8 = _ := drop_past hDrop (wordBytes_length 8 _)
  have hWords : data.drop (8 + 64) = _ := drop_past hMap (compressMap_length page.map.map1 512)
  have hRead := readMap_compressMap h.flags 0 64 tail
  rw [← List.range_eq_range'] at hRead
  rw [readPage, hSize, hWords, hMap, List.take_left' (compressMap_length page.map.map1 512)]
  exact hRead

/-- The records of a block, one after the other. -/
theorem readPages_records {pages : List SavedPage} (h : ∀ page ∈ pages, page.Valid) :
    readPages (pages.flatMap record) pages.length = (pages.flatMap entries, []) := by
  have hTail : ∀ tail, readPages (pages.flatMap record ++ tail) pages.length =
      (pages.flatMap entries, tail) := by
    intro tail
    induction pages with
    | nil => rfl
    | cons page rest ih =>
        have hPage := h page (List.mem_cons_self ..)
        obtain ⟨hAddr, hRead⟩ := read_record hPage (rest.flatMap record ++ tail)
        have hRest := ih fun page hp => h page (List.mem_cons_of_mem _ hp)
        rw [List.flatMap_cons, List.append_assoc, List.length_cons, readPages]
        simp only [hAddr, if_neg hPage.base_ne, hRead, hRest, List.flatMap_cons]
  simpa using hTail []

/-- The records of an uncompressed section, up to its end. -/
theorem readDatamap_records {pages : List SavedPage} (h : ∀ page ∈ pages, page.Valid)
    {fuel : Nat} (hFuel : pages.length < fuel) (after : List UInt8) :
    readDatamap (pages.flatMap record ++ (wordBytes 8 0 ++ after)) fuel =
      (pages.flatMap entries, after) := by
  induction pages generalizing fuel with
  | nil =>
      cases fuel with
      | zero => exact absurd hFuel (Nat.not_lt_zero _)
      | succ fuel =>
          have hEnd : (wordBytes 8 0 ++ after).drop 0 = wordBytes 8 0 ++ after := rfl
          rw [List.flatMap_nil, List.nil_append, readDatamap,
            if_pos (wordAt_of_drop hEnd (by decide)), List.drop_left' (wordBytes_length 8 0)]
          rfl
  | cons page rest ih =>
      cases fuel with
      | zero => exact absurd hFuel (Nat.not_lt_zero _)
      | succ fuel =>
          have hPage := h page (List.mem_cons_self ..)
          obtain ⟨hAddr, hRead⟩ :=
            read_record hPage (rest.flatMap record ++ (wordBytes 8 0 ++ after))
          have hRest := @ih (fun page hp => h page (List.mem_cons_of_mem _ hp)) fuel
            (Nat.lt_of_succ_lt_succ hFuel)
          rw [List.flatMap_cons, List.append_assoc, readDatamap]
          simp only [hAddr, if_neg hPage.base_ne, hRead, hRest, List.flatMap_cons]

end SavedPage

/-- The pages that the writers make of a list of entries, from the `i`-th entry on. -/
def savedPages (i : Nat) : List FirstLoadInfo → List SavedPage
  | [] => []
  | first :: rest =>
      let page := first :: rest.takeWhile (inPage first.addr)
      ⟨first.addr, coverPage i first.addr page⟩ ::
        savedPages (i + page.length) (rest.dropWhile (inPage first.addr))
  termination_by linfos => linfos.length
  decreasing_by
    exact Nat.lt_succ_of_le (List.dropWhile_sublist _).length_le

/-- A page starts at an entry. -/
theorem base_of_savedPages {i : Nat} {linfos : List FirstLoadInfo} {page : SavedPage}
    (h : page ∈ savedPages i linfos) : ∃ chunk ∈ linfos, page.base = chunk.addr := by
  induction i, linfos using savedPages.induct with
  | case1 i =>
      rw [savedPages] at h
      exact absurd h List.not_mem_nil
  | case2 i first rest chunks ih =>
      rw [savedPages] at h
      rcases List.mem_cons.mp h with rfl | h
      · exact ⟨first, List.mem_cons_self .., rfl⟩
      · obtain ⟨chunk, hChunk, hBase⟩ := ih h
        exact ⟨chunk, List.mem_cons_of_mem _ ((List.dropWhile_sublist _).subset hChunk), hBase⟩

theorem coverPage_flags (i base : Nat) (chunks : List FirstLoadInfo) (c : Nat) :
    (coverPage i base chunks).map1 c < 2 := by
  have hWord : ∀ pagedata word, wordFlag pagedata word < 2 := by
    intro pagedata word
    rw [wordFlag]
    split <;> decide
  have hFold : ∀ (page : PageMap), (∀ c, page.map1 c < 2) →
      ∀ c, (chunks.foldl (coverChunk base) page).map1 c < 2 := by
    induction chunks with
    | nil => exact fun page h => h
    | cons chunk rest ih =>
        intro page h
        apply ih
        intro c
        simp only [coverChunk]
        split
        · simp only [Function.update_apply]
          split
          · exact hWord _ _
          · split
            · exact hWord _ _
            · exact h c
        · simp only [Function.update_apply]
          split
          · exact hWord _ _
          · exact h c
  rw [coverPage]
  split
  · exact hFold _ (fun _ => Nat.two_pos) c
  · exact Nat.two_pos

/-- Addresses that a page can start from. -/
def Addressable (linfos : List FirstLoadInfo) : Prop :=
  ∀ chunk ∈ linfos, chunk.addr ≠ 0 ∧ chunk.addr < 2 ^ 64

theorem flags_of_savedPages {i : Nat} {linfos : List FirstLoadInfo} {page : SavedPage}
    (h : page ∈ savedPages i linfos) (c : Nat) : page.map.map1 c < 2 := by
  induction i, linfos using savedPages.induct with
  | case1 i =>
      rw [savedPages] at h
      exact absurd h List.not_mem_nil
  | case2 i first rest chunks ih =>
      rw [savedPages] at h
      rcases List.mem_cons.mp h with rfl | h
      · exact coverPage_flags _ _ _ c
      · exact ih h

/-- Pages of addressable entries can be read back. -/
theorem savedPages_valid {i : Nat} {linfos : List FirstLoadInfo} (h : Addressable linfos) :
    ∀ page ∈ savedPages i linfos, page.Valid := by
  intro page hPage
  obtain ⟨chunk, hChunk, hBase⟩ := base_of_savedPages hPage
  exact ⟨hBase ▸ (h chunk hChunk).1, hBase ▸ (h chunk hChunk).2, flags_of_savedPages hPage⟩

section Fastlz

variable (fastlz : FastLZ)

/-- A block that fits the buffer yields the entries of its pages, and the reader goes on
behind it. Any other one overruns the buffer. -/
theorem readFastlz_block {pages : List SavedPage} {after : List UInt8}
    (hValid : ∀ page ∈ pages, page.Valid)
    (hFits : (pages.flatMap SavedPage.record).length ≤ MaxCompressSize + ExtraDataSize)
    (hBlock : pages.flatMap SavedPage.record ≠ []) (hCount : pages.length < 2 ^ 64) :
    readFastlz fastlz ((wordBytes 8 (fastlz.compress (pages.flatMap SavedPage.record)).length ++
      (wordBytes 8 pages.length ++ fastlz.compress (pages.flatMap SavedPage.record))) ++ after) =
      if (fastlz.compress (pages.flatMap SavedPage.record)).length ≤
          MaxCompressSize + ExtraDataSize then
        (readFastlz fastlz after).map fun others =>
          (pages.flatMap SavedPage.entries ++ others.1, others.2)
      else none := by
  have hSize := fastlz.compress_length _ hFits
  have hNonzero := List.length_pos_iff.mpr (fastlz.compress_ne_nil _ hFits hBlock)
  have hInverse := fastlz.decompress_compress _ hFits
  have hPages := SavedPage.readPages_records hValid
  generalize pages.flatMap SavedPage.record = block at *
  generalize hFile : (wordBytes 8 (fastlz.compress block).length ++
      (wordBytes 8 pages.length ++ fastlz.compress block)) ++ after = file
  have hDrop : file.drop 0 = wordBytes 8 (fastlz.compress block).length ++
      (wordBytes 8 pages.length ++ (fastlz.compress block ++ after)) := by
    simp only [← hFile, List.drop_zero, List.append_assoc]
  have hDrop8 : file.drop 8 = _ := drop_past hDrop (wordBytes_length 8 _)
  have hDrop16 : file.drop 16 = _ := drop_past hDrop8 (wordBytes_length 8 _)
  have hBehind := drop_past hDrop16 rfl
  have hCompsize := wordAt_of_drop hDrop (by omega)
  rw [readFastlz, dif_neg (by omega)]
  simp only [hCompsize, wordAt_of_drop hDrop8 (by omega : pages.length < 256 ^ 8), hDrop16,
    List.take_left, hInverse, hPages, hBehind, ← Nat.not_le, ite_not]

end Fastlz

end RiscvCkpt
